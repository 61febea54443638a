import Mathlib.Data.Rat.Defs
import SpineFormal.Base.TextCodec

/-!
# Execution verification

`verify/tron/services/sandbox_client.py` and `verify/tron/verification/execution_verifier.py`:
a finding is turned into an exploit script, the sandbox runs it, and the exit code is read as a
verdict. What the sandbox does with a script is a parameter; what the client makes of it is not.
-/

namespace SpineFormal.Verify

set_option autoImplicit false

/-- A script, by what it tries out. -/
inductive Exploit where
  | injection (injectionType snippet : String)
  | pathTraversal (snippet : String)
  | ssrf (snippet : String)
  | anthropicKey (apiKey : String)
  | openaiKey (apiKey : String)
  | jwt (token : String)
  deriving DecidableEq

/-! ## The sandbox client -/

structure SandboxResult where
  exitCode : Int
  output : String
  error : Option String

/-- What becomes of a script. `own` says that the script ended itself with its status, and not
the interpreter (an uncaught exception) or the kernel (a limit). -/
inductive Behaviour where
  | exited (status : Int) (own : Bool) (output : String)
  | containerError (status : Int) (stderr message : String)
  | imageNotFound
  | noDocker
  | apiError (message : String)
  | waitFailed
  | unexpected (message : String)
  | unreachable (message : String)

/-- `TRON_SANDBOX_URL`, and whether a Docker client could be made. -/
structure SandboxClient where
  remoteUrl : String
  docker : Bool

def strip (s : String) : String := String.ofList (trimBy pySpace s.toList)

/-- `run_python` behind a Docker client. -/
def dockerResult (timeout : Nat) : Behaviour → SandboxResult
  | .exited status _ output => ⟨status, strip output, none⟩
  | .containerError status stderr message => ⟨status, stderr, some ("Container error: " ++ message)⟩
  | .imageNotFound => ⟨-1, "", some "Docker image not found (python:3.11-slim)"⟩
  | .noDocker => ⟨-1, "", some "Docker client not available"⟩
  | .apiError message => ⟨-1, "", some ("Docker API error: " ++ message)⟩
  | .waitFailed => ⟨-1, "", some ("Execution timeout after " ++ toString timeout ++ "s")⟩
  | .unexpected message => ⟨-1, "", some ("Unexpected error: " ++ message)⟩
  | .unreachable message => ⟨-1, "", some ("Unexpected error: " ++ message)⟩

/-- `_ALLOWED_NETWORK_MODES`. -/
def allowedNetworkModes : List String := ["bridge", "none"]

/-- `_validate_network_mode`. -/
def validateNetworkMode (mode : String) : Except String Unit :=
  if mode ∈ allowedNetworkModes then .ok ()
  else .error ("Sandbox network_mode='" ++ mode ++ "' is not in the allowlist ['bridge', 'none']. "
    ++ "Refusing to launch — ``host`` and ``container:...`` break the isolation boundary.")

/-- `run_python`: the mode is validated before anything is caught. -/
def SandboxClient.runPython (client : SandboxClient) (sandbox : Exploit → Behaviour)
    (script : Exploit) (timeout : Nat) (mode : String) : Except String SandboxResult :=
  (validateNetworkMode mode).map fun _ =>
    if client.remoteUrl ≠ "" then
      match sandbox script with
      | .unreachable message => ⟨-1, "", some message⟩
      | b => dockerResult timeout b
    else if client.docker then dockerResult timeout (sandbox script)
    else dockerResult timeout .noDocker

/-! ## Exploits -/

inductive VerificationStatus where
  | verified
  | rejected
  | unverified
  | skipped
  deriving DecidableEq

structure VerificationResult where
  status : VerificationStatus
  method : String
  confidenceAdjustment : ℚ
  reason : String
  executionOutput : Option String

/-- The part of `FindingSnapshot` that a verification reads. -/
structure FindingSnapshot where
  category : String
  codeSnippet : String

def isBlank (c : Char) : Bool := c = ' ' || c = '\t'

/-- The longest common beginning, as `textwrap.dedent` narrows its margin. -/
def commonPrefix : List Char → List Char → List Char
  | c :: s, d :: t => if c = d then c :: commonPrefix s t else []
  | _, _ => []

def margin : List (List Char) → List Char
  | [] => []
  | [indent] => indent
  | indent :: indents => commonPrefix indent (margin indents)

/-- `textwrap.dedent`. -/
def dedent (text : String) : String :=
  let lines := (text.toList.splitOn '\n').map fun line => if line.all isBlank then [] else line
  let cut := margin ((lines.filter (· ≠ [])).map (·.takeWhile isBlank))
  String.ofList (['\n'].intercalate
    (lines.map fun line => if cut.isPrefixOf line then line.drop cut.length else line))

/-- The verdict on a finding, or an exception that nothing catches. -/
abbrev Verified := Except String VerificationResult

def unverified (method reason : String) : Verified :=
  .ok ⟨.unverified, method, 0, reason, none⟩

abbrev Runner := Exploit → Nat → String → Except String SandboxResult

section
variable (run : Runner)

/-- An exploit made from a snippet: any exit code but zero rejects the finding. -/
def verifySnippet (snippet : String) (exploit : String → Exploit) (timeout : Nat)
    (mode method verifiedReason rejectedReason : String) : Verified :=
  if dedent snippet = "" then unverified method "No code snippet available to test"
  else (run (exploit (dedent snippet)) timeout mode).map fun result =>
    if result.exitCode = 0 then
      ⟨.verified, method, 1 / 5, verifiedReason, some result.output⟩
    else
      ⟨.rejected, method, -1 / 5, rejectedReason, some (result.output ++ result.error.getD "")⟩

/-- `_verify_injection`. -/
def verifyInjection (snippet injectionType upper : String) : Verified :=
  verifySnippet run snippet (.injection injectionType) 10 "none"
    (injectionType ++ "_injection_test") (upper ++ " injection verified in sandbox")
    ("Failed to verify " ++ injectionType ++ " injection")

/-- `_verify_path_traversal`. -/
def verifyPathTraversal (snippet : String) : Verified :=
  verifySnippet run snippet .pathTraversal 5 "none" "path_traversal_test"
    "Path traversal verified by reading /etc/os-release" "Path traversal verification failed"

/-- `_verify_ssrf`. -/
def verifySsrf (snippet : String) : Verified :=
  verifySnippet run snippet .ssrf 5 "restricted" "ssrf_test"
    "SSRF verified by attempting to fetch http://localhost" "SSRF verification failed"

/-! ## Secrets -/

def isAsciiAlnum (c : Char) : Bool := c.isAlphanum

def isSecretChar (c : Char) : Bool := isAsciiAlnum c || c = '_' || c = '-'

def isQuote (c : Char) : Bool := c = '"' || c = '\''

/-- `re.search`: the first place where a pattern matches. -/
def search (at? : List Char → Option (List Char)) : List Char → Option (List Char)
  | [] => at? []
  | c :: s => (at? (c :: s)).or (search at? s)

def quotedAt : List Char → Option (List Char)
  | [] => none
  | c :: s =>
    let word := s.takeWhile isSecretChar
    if isQuote c && 20 ≤ word.length && ((s.drop word.length).head?.any isQuote) then some word
    else none

/-- The text after a literal, if it is there. -/
def after? (literal : String) (s : List Char) : Option (List Char) :=
  if literal.toList.isPrefixOf s then some (s.drop literal.toList.length) else none

def skAt (s : List Char) : Option (List Char) :=
  (after? "sk-" s).bind fun rest =>
    let word := rest.takeWhile isAsciiAlnum
    if 20 ≤ word.length then some ("sk-".toList ++ word) else none

def akiaAt (s : List Char) : Option (List Char) :=
  (after? "AKIA" s).bind fun rest =>
    let word := rest.take 16
    if word.length = 16 && word.all (fun c => c.isDigit || c.isUpper) then
      some ("AKIA".toList ++ word)
    else none

def bearerAt (s : List Char) : Option (List Char) :=
  (after? "Bearer" s).bind fun rest =>
    let word := (rest.dropWhile pySpace).takeWhile fun c => isSecretChar c || c = '.'
    if rest.head?.any pySpace && word ≠ [] then some word else none

/-- `_extract_secret_from_code`. -/
def extractSecretFromCode (code : String) : Option String :=
  ([quotedAt, skAt, akiaAt, bearerAt].findSome? fun pattern => search pattern code.toList).map
    String.ofList

/-- `_identify_secret_type`. -/
def identifySecretType (secret : String) : String :=
  if "sk-ant-".toList.isPrefixOf secret.toList then "anthropic_api_key"
  else if "sk-".toList.isPrefixOf secret.toList then "openai_api_key"
  else if "AKIA".toList.isPrefixOf secret.toList then "aws_access_key"
  else if secret.toList.count '.' = 2 then "jwt"
  else if 30 < secret.toList.length then "api_key"
  else "unknown"

/-- The end of `_test_api_key`. -/
def apiKeyResult (script : Exploit) : Verified :=
  (run script 10 "restricted").map fun result =>
    if result.exitCode = 0 then
      ⟨.verified, "api_key_test", 3 / 20, "API key validated successfully", some result.output⟩
    else if result.exitCode = 1 then
      ⟨.rejected, "api_key_test", -3 / 10, "API key is invalid or expired", some result.output⟩
    else ⟨.unverified, "api_key_test", 0, "Test execution failed", some result.output⟩

/-- `_test_api_key`. -/
def testApiKey (apiKey : String) : Verified :=
  if "sk-ant-".toList.isPrefixOf apiKey.toList then apiKeyResult run (.anthropicKey apiKey)
  else if "sk-".toList.isPrefixOf apiKey.toList then apiKeyResult run (.openaiKey apiKey)
  else unverified "unknown_api_format" "API key format not recognized"

/-- `_test_jwt_token`. -/
def testJwtToken (token : String) : Verified :=
  (run (.jwt token) 5 "none").map fun result =>
    if result.exitCode = 0 then
      ⟨.verified, "jwt_validation", 1 / 10, "JWT token is valid and not expired", none⟩
    else if result.exitCode = 1 then
      ⟨.rejected, "jwt_validation", -1 / 4, "JWT token is invalid or expired", none⟩
    else ⟨.unverified, "jwt_validation", 0, "JWT validation test failed", none⟩

/-- `_verify_secret`. -/
def verifySecret (snippet : String) : Verified :=
  match extractSecretFromCode snippet with
  | none => unverified "secret_extraction_failed" "Could not extract secret from code snippet"
  | some secret =>
    if identifySecretType secret = "api_key" then testApiKey run secret
    else if identifySecretType secret = "jwt" then testJwtToken run secret
    else if identifySecretType secret = "aws_key" then
      unverified "aws_credentials_test" "AWS credential testing not implemented (requires AWS SDK)"
    else
      unverified "unknown_secret_type"
        ("Secret type '" ++ identifySecretType secret ++ "' cannot be automatically tested")

/-- `verify_finding`. -/
def verifyFinding (finding : FindingSnapshot) : Verified :=
  if finding.category = "hardcoded_secrets" then verifySecret run finding.codeSnippet
  else if finding.category ∈ ["sql_injection", "nosql_injection"] then
    verifyInjection run finding.codeSnippet "sql" "SQL"
  else if finding.category ∈ ["command_injection", "code_injection"] then
    verifyInjection run finding.codeSnippet "command" "COMMAND"
  else if finding.category = "path_traversal" then verifyPathTraversal run finding.codeSnippet
  else if finding.category = "ssrf" then verifySsrf run finding.codeSnippet
  else
    .ok ⟨.skipped, "no_test_available", 0,
      "No verification test for category: " ++ finding.category, none⟩

/-! ## What a verification comes to -/

/-- How a finding is tested. -/
inductive Probe where
  | exploit (script : Exploit)
  | blocked
  | token (script : Exploit)

/-- The test of a finding, if there is one; for `ssrf` it is one that is never let through. -/
def probeOf (finding : FindingSnapshot) : Option Probe :=
  if finding.category = "hardcoded_secrets" then
    (extractSecretFromCode finding.codeSnippet).bind fun secret =>
      if identifySecretType secret = "jwt" then some (.token (.jwt secret)) else none
  else if dedent finding.codeSnippet = "" then none
  else if finding.category ∈ ["sql_injection", "nosql_injection"] then
    some (.exploit (.injection "sql" (dedent finding.codeSnippet)))
  else if finding.category ∈ ["command_injection", "code_injection"] then
    some (.exploit (.injection "command" (dedent finding.codeSnippet)))
  else if finding.category = "path_traversal" then
    some (.exploit (.pathTraversal (dedent finding.codeSnippet)))
  else if finding.category = "ssrf" then some .blocked
  else none

variable {run}

/-- No secret that is typed `api_key` has a form that `_test_api_key` knows. -/
theorem testApiKey_of_api_key {secret : String} (h : identifySecretType secret = "api_key") :
    testApiKey run secret = unverified "unknown_api_format" "API key format not recognized" := by
  have hant : "sk-ant-".toList.isPrefixOf secret.toList = false := by
    by_contra hant
    rw [identifySecretType, if_pos (by simpa using hant)] at h
    revert h
    decide
  have hsk : "sk-".toList.isPrefixOf secret.toList = false := by
    by_contra hsk
    rw [identifySecretType, if_neg (by rw [hant]; decide), if_pos (by simpa using hsk)] at h
    revert h
    decide
  rw [testApiKey, hant, hsk]
  rfl

/-- What a verification can come to, by the test of the finding. -/
inductive Outcomes (run : Runner) (finding : FindingSnapshot) : Prop where
  | untested (hprobe : probeOf finding = none) {result : VerificationResult}
      (hresult : verifyFinding run finding = .ok result) (hrejected : result.status ≠ .rejected)
  | blocked (hprobe : probeOf finding = some .blocked) {script : Exploit}
      {verdict : SandboxResult → VerificationResult}
      (hrun : verifyFinding run finding = (run script 5 "restricted").map verdict)
  | exploit {script : Exploit} (hprobe : probeOf finding = some (.exploit script))
      {timeout : Nat} {verdict : SandboxResult → VerificationResult}
      (hrun : verifyFinding run finding = (run script timeout "none").map verdict)
      (hverdict : ∀ r, (verdict r).status = .rejected ↔ r.exitCode ≠ 0)
  | token {script : Exploit} (hprobe : probeOf finding = some (.token script))
      {verdict : SandboxResult → VerificationResult}
      (hrun : verifyFinding run finding = (run script 5 "none").map verdict)
      (hverdict : ∀ r, (verdict r).status = .rejected ↔ r.exitCode = 1)

theorem outcomes_secret {finding : FindingSnapshot} (h : finding.category = "hardcoded_secrets") :
    Outcomes run finding := by
  have hverify : verifyFinding run finding = verifySecret run finding.codeSnippet := by
    rw [verifyFinding, if_pos h]
  have hprobe : probeOf finding = (extractSecretFromCode finding.codeSnippet).bind fun secret =>
      if identifySecretType secret = "jwt" then some (.token (.jwt secret)) else none := by
    rw [probeOf, if_pos h]
  cases hsecret : extractSecretFromCode finding.codeSnippet with
  | none =>
    rw [hsecret] at hprobe
    rw [verifySecret, hsecret] at hverify
    exact .untested hprobe hverify (by decide)
  | some secret =>
    rw [hsecret, Option.bind_some] at hprobe
    simp only [verifySecret, hsecret] at hverify
    by_cases hapi : identifySecretType secret = "api_key"
    · rw [if_pos hapi, testApiKey_of_api_key hapi] at hverify
      rw [if_neg (by rw [hapi]; decide)] at hprobe
      exact .untested hprobe hverify (by decide)
    · rw [if_neg hapi] at hverify
      by_cases hjwt : identifySecretType secret = "jwt"
      · rw [if_pos hjwt] at hprobe hverify
        refine .token hprobe hverify fun r => ?_
        by_cases hzero : r.exitCode = 0
        · simp [hzero]
        · by_cases hone : r.exitCode = 1 <;> simp [hzero, hone]
      · rw [if_neg hjwt] at hprobe hverify
        split at hverify
        · exact .untested hprobe hverify (by decide)
        · exact .untested hprobe hverify nofun

theorem verifySnippet_blank {snippet : String} (h : dedent snippet = "")
    (exploit : String → Exploit) (timeout : Nat)
    (mode method verifiedReason rejectedReason : String) :
    verifySnippet run snippet exploit timeout mode method verifiedReason rejectedReason =
      unverified method "No code snippet available to test" := by
  rw [verifySnippet, if_pos h]

variable (run) in
theorem verifySnippet_map {snippet : String} (h : dedent snippet ≠ "") (exploit : String → Exploit)
    (timeout : Nat) (mode method verifiedReason rejectedReason : String) :
    ∃ verdict : SandboxResult → VerificationResult,
      verifySnippet run snippet exploit timeout mode method verifiedReason rejectedReason =
        (run (exploit (dedent snippet)) timeout mode).map verdict ∧
      ∀ r, (verdict r).status = .rejected ↔ r.exitCode ≠ 0 := by
  rw [verifySnippet, if_neg h]
  refine ⟨_, rfl, fun r => ?_⟩
  by_cases hzero : r.exitCode = 0 <;> simp [hzero]

theorem outcomes_blank {finding : FindingSnapshot}
    (hsecret : finding.category ≠ "hardcoded_secrets") (h : dedent finding.codeSnippet = "") :
    Outcomes run finding := by
  have hprobe : probeOf finding = none := by rw [probeOf, if_neg hsecret, if_pos h]
  have hverify : ∃ result, verifyFinding run finding = .ok result ∧ result.status ≠ .rejected := by
    rw [verifyFinding, if_neg hsecret, verifyInjection, verifyInjection, verifyPathTraversal,
      verifySsrf, verifySnippet_blank h, verifySnippet_blank h, verifySnippet_blank h,
      verifySnippet_blank h]
    split_ifs <;> exact ⟨_, rfl, nofun⟩
  obtain ⟨result, hresult, hrejected⟩ := hverify
  exact .untested hprobe hresult hrejected

/-- Every finding is untested, blocked, or judged by an exit code. -/
theorem outcomes (run : Runner) (finding : FindingSnapshot) : Outcomes run finding := by
  by_cases hsecret : finding.category = "hardcoded_secrets"
  · exact outcomes_secret hsecret
  · by_cases hblank : dedent finding.codeSnippet = ""
    · exact outcomes_blank hsecret hblank
    · have hverify := verifyFinding.eq_1 run finding
      have hprobe := probeOf.eq_1 finding
      rw [if_neg hsecret] at hverify hprobe
      rw [if_neg hblank] at hprobe
      by_cases hsql : finding.category ∈ ["sql_injection", "nosql_injection"]
      · rw [if_pos hsql] at hverify hprobe
        obtain ⟨verdict, hmap, hverdict⟩ := verifySnippet_map run hblank _ _ _ _ _ _
        exact .exploit hprobe (hverify.trans hmap) hverdict
      · rw [if_neg hsql] at hverify hprobe
        by_cases hcommand : finding.category ∈ ["command_injection", "code_injection"]
        · rw [if_pos hcommand] at hverify hprobe
          obtain ⟨verdict, hmap, hverdict⟩ := verifySnippet_map run hblank _ _ _ _ _ _
          exact .exploit hprobe (hverify.trans hmap) hverdict
        · rw [if_neg hcommand] at hverify hprobe
          by_cases hpath : finding.category = "path_traversal"
          · rw [if_pos hpath] at hverify hprobe
            obtain ⟨verdict, hmap, hverdict⟩ := verifySnippet_map run hblank _ _ _ _ _ _
            exact .exploit hprobe (hverify.trans hmap) hverdict
          · rw [if_neg hpath] at hverify hprobe
            by_cases hssrf : finding.category = "ssrf"
            · rw [if_pos hssrf] at hverify hprobe
              obtain ⟨verdict, hmap, -⟩ := verifySnippet_map run hblank _ _ _ _ _ _
              exact .blocked hprobe (hverify.trans hmap)
            · rw [if_neg hssrf] at hverify hprobe
              exact .untested hprobe hverify nofun

end

end SpineFormal.Verify
