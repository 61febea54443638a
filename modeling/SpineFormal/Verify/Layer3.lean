import Mathlib.Data.List.ReduceOption
import SpineFormal.Verify.ExecutionVerifier
import SpineFormal.Verify.ScopeFilter

/-!
# Layer 3

`verify/tron/services/layer3_findings.py`: critical and high findings are verified in the
sandbox, the rejected ones are dropped.
-/

namespace SpineFormal.Verify

set_option autoImplicit false

inductive SeverityLevel where
  | critical
  | high
  | medium
  | low
  | info
  deriving DecidableEq

/-- A finding with what Layer 3 reads and sets. -/
structure AuditFinding extends FindingOutput where
  severity : SeverityLevel
  codeSnippet : String
  confidence : ℚ
  deterministicToolConfirmed : Bool
  layer3Execution : Option String
  deriving DecidableEq

def VulnerabilityType.value : VulnerabilityType → String
  | .sqlInjection => "sql_injection"
  | .xss => "xss"
  | .hardcodedSecrets => "hardcoded_secrets"
  | .insecureDeserialization => "insecure_deserialization"
  | .brokenAuth => "broken_auth"
  | .securityMisconfiguration => "security_misconfiguration"
  | .ssrf => "ssrf"
  | .pathTraversal => "path_traversal"
  | .commandInjection => "command_injection"
  | .openRedirect => "open_redirect"
  | .insufficientLogging => "insufficient_logging"
  | .dependencyVulnerability => "dependency_vulnerability"
  | .other => "other"

namespace AuditFinding

def Severe (fo : AuditFinding) : Prop := fo.severity = .critical ∨ fo.severity = .high

instance (fo : AuditFinding) : Decidable fo.Severe := inferInstanceAs (Decidable (_ ∨ _))

def snapshot (fo : AuditFinding) : FindingSnapshot := ⟨fo.vulnerabilityType.value, fo.codeSnippet⟩

/-- `_with_layer3`. -/
def withLayer3 (fo : AuditFinding) (tag : String) : AuditFinding :=
  { fo with layer3Execution := some tag }

end AuditFinding

/-- `is_available`, where `healthy` is the answer of the health check or the ping. -/
def SandboxClient.isAvailable (client : SandboxClient) (healthy : Bool) : Bool :=
  if client.remoteUrl ≠ "" then healthy else client.docker && healthy

/-- What a verdict leaves of a finding; `none` is dropped. -/
def afterVerdict (fo : AuditFinding) (result : VerificationResult) : Option AuditFinding :=
  match result.status with
  | .rejected => none
  | .verified => some { fo with
      confidence := min 1 (fo.confidence + result.confidenceAdjustment)
      deterministicToolConfirmed := true
      layer3Execution := some "verified" }
  | .unverified => some (fo.withLayer3 "unverified")
  | .skipped => some (fo.withLayer3 "unverified")

/-- One finding in the loop of `apply_layer3_to_findings`. -/
def layer3Step (client : SandboxClient) (sandbox : Exploit → Behaviour) (fo : AuditFinding) :
    Except String (Option AuditFinding) :=
  if ¬ fo.Severe then .ok (some (fo.withLayer3 "not_applicable"))
  else (verifyFinding (client.runPython sandbox) fo.snapshot).map (afterVerdict fo)

/-- A finding, with what the sandbox does with the scripts that are made for it. -/
abbrev Work := List (AuditFinding × (Exploit → Behaviour))

/-- `apply_layer3_to_findings`. -/
def applyLayer3ToFindings (client : SandboxClient) (healthy : Bool) (work : Work) :
    Except String (List AuditFinding) :=
  if client.isAvailable healthy then
    (work.mapM fun item => layer3Step client item.2 item.1).map List.reduceOption
  else
    .ok (work.map fun item =>
      item.1.withLayer3 (if item.1.Severe then "skipped" else "not_applicable"))

/-! ## Soundness -/

/-- The exit code that the client reports. -/
def Behaviour.status : Behaviour → Int
  | .exited status _ _ => status
  | .containerError status _ _ => status
  | _ => -1

/-- The script ran and ended itself. -/
def Behaviour.own : Behaviour → Bool
  | .exited _ own _ => own
  | _ => false

def Probe.script? : Probe → Option Exploit
  | .exploit script => some script
  | .token script => some script
  | .blocked => none

/-- The exploit script was executed and reported failure. -/
def ReportedFailure (sandbox : Exploit → Behaviour) (fo : AuditFinding) : Prop :=
  ∃ script, (probeOf fo.snapshot).bind Probe.script? = some script ∧
    (sandbox script).own = true ∧ (sandbox script).status ≠ 0

/-- The pass completes, and what it drops reported failure. -/
structure Layer3Sound (client : SandboxClient) (healthy : Bool) (work : Work) : Prop where
  completes : ∃ kept, applyLayer3ToFindings client healthy work = .ok kept
  drops : client.isAvailable healthy = true →
    ∀ item ∈ work, layer3Step client item.2 item.1 = .ok none → ReportedFailure item.2 item.1

/-- No test that is never let through, and no exit code that rejects and is not the script's. -/
def Fair (sandbox : Exploit → Behaviour) (fo : AuditFinding) : Prop :=
  match probeOf fo.snapshot with
  | none => True
  | some .blocked => False
  | some (.exploit script) => (sandbox script).status ≠ 0 → (sandbox script).own = true
  | some (.token script) => (sandbox script).status = 1 → (sandbox script).own = true

theorem mapM_ok_iff {α β : Type} (f : α → Except String β) (xs : List α) :
    (∃ ys, xs.mapM f = .ok ys) ↔ ∀ x ∈ xs, ∃ y, f x = .ok y := by
  induction xs with
  | nil => exact iff_of_true ⟨[], rfl⟩ (by simp)
  | cons x xs ih =>
    rw [List.forall_mem_cons, ← ih, List.mapM_cons]
    cases f x with
    | error message =>
      exact iff_of_false (by rintro ⟨_, h⟩; cases h) (by rintro ⟨⟨_, h⟩, _⟩; cases h)
    | ok y =>
      cases xs.mapM f with
      | error message =>
        exact iff_of_false (by rintro ⟨_, h⟩; cases h) (by rintro ⟨_, ⟨_, h⟩⟩; cases h)
      | ok ys => exact iff_of_true ⟨y :: ys, rfl⟩ ⟨⟨y, rfl⟩, ys, rfl⟩

section
variable {client : SandboxClient} {healthy : Bool} {sandbox : Exploit → Behaviour}
variable {fo : AuditFinding}

theorem runPython_none (h : client.isAvailable healthy = true) (script : Exploit) (timeout : Nat) :
    ∃ result, client.runPython sandbox script timeout "none" = .ok result ∧
      result.exitCode = (sandbox script).status := by
  have hdocker : ∀ b, (dockerResult timeout b).exitCode = b.status := fun b => by cases b <;> rfl
  have hmode : validateNetworkMode "none" = .ok () := rfl
  rw [SandboxClient.runPython, hmode]
  refine ⟨_, rfl, ?_⟩
  by_cases hremote : client.remoteUrl = ""
  · have hclient : client.docker = true := by
      rw [SandboxClient.isAvailable, if_neg (not_not.mpr hremote), Bool.and_eq_true] at h
      exact h.1
    rw [if_neg (not_not.mpr hremote), if_pos hclient, hdocker]
  · rw [if_pos hremote]
    split
    · rename_i message hb
      rw [hb]
      rfl
    · exact hdocker _

theorem runPython_restricted (client : SandboxClient) (sandbox : Exploit → Behaviour)
    (script : Exploit) (timeout : Nat) :
    ∃ message, client.runPython sandbox script timeout "restricted" = .error message :=
  ⟨_, rfl⟩

theorem afterVerdict_eq_none (fo : AuditFinding) (result : VerificationResult) :
    afterVerdict fo result = none ↔ result.status = .rejected := by
  obtain ⟨status, method, adjustment, reason, output⟩ := result
  cases status <;> simp [afterVerdict]

/-- What is sound of a step is what is sound of the verdict. -/
theorem step_of_verdict {result : VerificationResult} (hsevere : fo.Severe)
    (hresult : verifyFinding (client.runPython sandbox) fo.snapshot = .ok result) :
    ((∃ out, layer3Step client sandbox fo = .ok out) ∧
      (layer3Step client sandbox fo = .ok none → ReportedFailure sandbox fo)) ↔
      (result.status = .rejected → ReportedFailure sandbox fo) := by
  have hstep : layer3Step client sandbox fo = .ok (afterVerdict fo result) := by
    rw [layer3Step, if_neg (not_not.mpr hsevere), hresult]
    rfl
  rw [hstep, ← afterVerdict_eq_none fo result]
  constructor
  · exact fun h hnone => h.2 (congrArg Except.ok hnone)
  · exact fun h => ⟨⟨_, rfl⟩, fun hok => h (Except.ok.inj hok)⟩

theorem reportedFailure_iff {probe : Probe} {script : Exploit}
    (hprobe : probeOf fo.snapshot = some probe) (hscript : probe.script? = some script) :
    ReportedFailure sandbox fo ↔ (sandbox script).own = true ∧ (sandbox script).status ≠ 0 := by
  have h : (probeOf fo.snapshot).bind Probe.script? = some script := by
    rw [hprobe]
    exact hscript
  constructor
  · rintro ⟨script', hs', hown, hstatus⟩
    obtain rfl := Option.some.inj (h.symm.trans hs')
    exact ⟨hown, hstatus⟩
  · exact fun ⟨hown, hstatus⟩ => ⟨script, h, hown, hstatus⟩

/-- One step is sound just when the finding is treated fairly. -/
theorem step_sound_iff (h : client.isAvailable healthy = true) :
    ((∃ out, layer3Step client sandbox fo = .ok out) ∧
      (layer3Step client sandbox fo = .ok none → ReportedFailure sandbox fo)) ↔
      (fo.Severe → Fair sandbox fo) := by
  by_cases hsevere : fo.Severe
  · rw [Fair]
    rcases outcomes (client.runPython sandbox) fo.snapshot with
      ⟨hprobe, hresult, hrejected⟩ | ⟨hprobe, hrun⟩ | ⟨hprobe, hrun, hverdict⟩ |
        ⟨hprobe, hrun, hverdict⟩
    · rw [step_of_verdict hsevere hresult, hprobe]
      exact iff_of_true (fun hstatus => absurd hstatus hrejected) fun _ => trivial
    · rename_i script verdict
      obtain ⟨message, herror⟩ := runPython_restricted client sandbox script 5
      rw [hprobe]
      refine iff_of_false ?_ fun hfair => hfair hsevere
      rintro ⟨⟨out, hout⟩, -⟩
      rw [layer3Step, if_neg (not_not.mpr hsevere), hrun, herror] at hout
      cases hout
    · rename_i script timeout verdict
      obtain ⟨r, hr, hcode⟩ := @runPython_none client healthy sandbox h script timeout
      rw [hr] at hrun
      rw [step_of_verdict hsevere hrun, hverdict, hcode,
        reportedFailure_iff hprobe rfl, hprobe]
      constructor
      · exact fun hdrop _ hstatus => (hdrop hstatus).1
      · exact fun hfair hstatus => ⟨hfair hsevere hstatus, hstatus⟩
    · rename_i script verdict
      obtain ⟨r, hr, hcode⟩ := @runPython_none client healthy sandbox h script 5
      rw [hr] at hrun
      rw [step_of_verdict hsevere hrun, hverdict, hcode,
        reportedFailure_iff hprobe rfl, hprobe]
      constructor
      · exact fun hdrop _ hstatus => (hdrop hstatus).1
      · exact fun hfair hstatus => ⟨hfair hsevere hstatus, by rw [hstatus]; decide⟩
  · rw [layer3Step, if_pos hsevere]
    exact iff_of_true ⟨⟨_, rfl⟩, fun hdrop => by cases hdrop⟩ fun hs => absurd hs hsevere

end

/-- The pass is sound just when the sandbox is unavailable or every finding is treated fairly. -/
theorem layer3Sound_iff (client : SandboxClient) (healthy : Bool) (work : Work) :
    Layer3Sound client healthy work ↔ (client.isAvailable healthy = true →
      ∀ item ∈ work, item.1.Severe → Fair item.2 item.1) := by
  by_cases havailable : client.isAvailable healthy = true
  · have hcompletes : (∃ kept, applyLayer3ToFindings client healthy work = .ok kept) ↔
        ∀ item ∈ work, ∃ out, layer3Step client item.2 item.1 = .ok out := by
      rw [← mapM_ok_iff, applyLayer3ToFindings, if_pos havailable]
      cases work.mapM fun item => layer3Step client item.2 item.1 with
      | error message =>
        exact iff_of_false (by rintro ⟨_, h⟩; cases h) (by rintro ⟨_, h⟩; cases h)
      | ok outs => exact iff_of_true ⟨_, rfl⟩ ⟨_, rfl⟩
    constructor
    · intro hsound _ item hitem
      exact (step_sound_iff havailable).mp
        ⟨hcompletes.mp hsound.completes item hitem, hsound.drops havailable item hitem⟩
    · intro hfair
      have hsteps := fun item hitem => (step_sound_iff havailable).mpr (hfair havailable item hitem)
      exact ⟨hcompletes.mpr fun item hitem => (hsteps item hitem).1,
        fun _ item hitem => (hsteps item hitem).2⟩
  · refine iff_of_true ⟨?_, fun h => absurd h havailable⟩ fun h => absurd h havailable
    rw [applyLayer3ToFindings, if_neg havailable]
    exact ⟨_, rfl⟩

/-! ## Two findings -/

def queryFinding : AuditFinding where
  filePath := "app.py"
  vulnerabilityType := .sqlInjection
  severity := .critical
  codeSnippet := "db.execute(q)"
  confidence := 1 / 2
  deterministicToolConfirmed := false
  layer3Execution := none

def fetchFinding : AuditFinding :=
  { queryFinding with vulnerabilityType := .ssrf, codeSnippet := "urlopen(url)" }

/-- A timeout drops a finding, and a finding of type `ssrf` ends the pass. -/
theorem timeout_drops_and_ssrf_aborts :
    applyLayer3ToFindings ⟨"", true⟩ true [(queryFinding, fun _ => .waitFailed)] = .ok [] ∧
      (∃ message, applyLayer3ToFindings ⟨"", true⟩ true
        [(fetchFinding, fun _ => .exited 0 true "")] = .error message) ∧
      ¬ Layer3Sound ⟨"", true⟩ true [(queryFinding, fun _ => .waitFailed)] := by
  refine ⟨by decide +kernel, ⟨_, rfl⟩, fun hsound => ?_⟩
  obtain ⟨script, -, hown, -⟩ := hsound.drops (by decide) _ (List.mem_singleton_self _)
    (by decide +kernel)
  cases hown

end SpineFormal.Verify
