import Mathlib.Data.List.DropRight
import Mathlib.Data.Rat.Defs
import Mathlib.Tactic.NormNum
import SpineFormal.Base.Glob
import SpineFormal.Base.KeyedTable
import SpineFormal.Base.TextCodec

/-!
# The scope filter of an audit

`verify/tron/agents/manager.py`: every agent gets a blueprint, its findings come back in a
batch, and Layer 5 drops what lies outside the blueprint. The manager keeps the blueprints
under the specialization of the agent; the filter looks them up under the id of the batch.
-/

namespace SpineFormal.Verify

set_option autoImplicit false

inductive ISOSpecialization where
  | security
  | builder
  | qa
  | performance
  | compliance
  | documentation
  | architecture
  deriving DecidableEq

def ISOSpecialization.value : ISOSpecialization → String
  | .security => "security"
  | .builder => "builder"
  | .qa => "qa"
  | .performance => "performance"
  | .compliance => "compliance"
  | .documentation => "documentation"
  | .architecture => "architecture"

inductive VulnerabilityType where
  | sqlInjection
  | xss
  | hardcodedSecrets
  | insecureDeserialization
  | brokenAuth
  | securityMisconfiguration
  | ssrf
  | pathTraversal
  | commandInjection
  | openRedirect
  | insufficientLogging
  | dependencyVulnerability
  | other
  deriving DecidableEq

structure BlueprintScope where
  filePatterns : List String
  checkTypes : List VulnerabilityType
  languages : List String

structure Blueprint where
  id : String
  scope : BlueprintScope
  maxTokens : Int
  maxDurationSeconds : Int
  temperature : ℚ

structure FindingOutput where
  filePath : String
  vulnerabilityType : VulnerabilityType
  deriving DecidableEq

structure FindingBatch where
  blueprintId : String
  agentId : String
  findings : List FindingOutput

structure AuditRequest where
  auditRunId : String
  files : List String
  languages : List String
  checkTypes : List VulnerabilityType

/-- What the pipeline of an agent comes to. -/
inductive Outcome where
  | found (findings : List FindingOutput)
  | timedOut
  | failed

/-- A registered agent; `run` is its pipeline, and `batches` is false when its batch is not
valid. -/
structure Agent where
  agentId : String
  specialization : ISOSpecialization
  maxTokens : Int
  maxDurationSeconds : Int
  temperature : ℚ
  run : Blueprint → Outcome
  batches : Blueprint → Bool

/-! ## Blueprints -/

def slashes (s : String) : String := s.map fun c => if c = '\\' then '/' else c

/-- `BLOCKED_PATH_PATTERNS`. -/
def blockedPathPatterns : List String :=
  ["/etc/*", "/proc/*", "/sys/*", "/dev/*", "/var/run/*", "/root/*", "/home/*/.ssh/*",
    "/home/*/.aws/*", "/home/*/.config/*", "**/.env", "**/.env.*", "**/secrets/*",
    "**/private_keys/*", "**/docker.sock"]

/-- The name matches the pattern, in the directory or below it. -/
def matchesPattern (name pattern : String) : Bool :=
  Glob.fnmatch name pattern || Glob.fnmatch name ("**/" ++ pattern)

/-- `validate_file_patterns_admission`, for one pattern. -/
def admitPattern (pattern : String) : Except String Unit :=
  let normalized := slashes (String.ofList (trimBy pySpace pattern.toList))
  match blockedPathPatterns.find? (matchesPattern normalized) with
  | some blocked =>
    .error ("Blueprint admission control: pattern '" ++ pattern ++ "' matches blocked path '" ++
      blocked ++ "'. Agents cannot scan system files, secrets, or paths outside the project " ++
      "workspace.")
  | none =>
    if "/".isPrefixOf normalized && !"/workspace/".isPrefixOf normalized then
      .error ("Blueprint admission control: absolute path '" ++ pattern ++ "' rejected. All " ++
        "file patterns must be relative to the project workspace or start with /workspace/.")
    else .ok ()

/-- `path.rsplit(".", 1)[1]`, if there is a dot. -/
def extensionOf (path : String) : Option String :=
  if '.' ∈ path.toList then some (String.ofList (path.toList.rtakeWhile (· ≠ '.'))) else none

def filePatterns (request : AuditRequest) : List String :=
  let extensions := (request.files.filterMap extensionOf).dedup
  if extensions = [] then ["*.*"] else extensions.map ("*." ++ ·)

def blueprintId (request : AuditRequest) (spec : ISOSpecialization) : String :=
  request.auditRunId ++ "-" ++ spec.value

/-- The blueprint of one agent, where the model accepts it. -/
def createBlueprint (request : AuditRequest) (agent : Agent) : Except String Blueprint :=
  match (filePatterns request).forM admitPattern with
  | .error message => .error message
  | .ok () =>
    if agent.maxTokens < 100 then .error "max_tokens"
    else if agent.maxDurationSeconds < 10 then .error "max_duration_seconds"
    else if agent.temperature < 0 ∨ 1 < agent.temperature then .error "temperature"
    else .ok {
      id := blueprintId request agent.specialization
      scope := ⟨filePatterns request, request.checkTypes, request.languages⟩
      maxTokens := agent.maxTokens
      maxDurationSeconds := agent.maxDurationSeconds
      temperature := agent.temperature }

abbrev Blueprints := List (ISOSpecialization × Blueprint)

/-- `_create_blueprints`. -/
def createBlueprints (request : AuditRequest) (agents : List Agent) : Except String Blueprints :=
  agents.mapM fun agent => (createBlueprint request agent).map fun bp => (agent.specialization, bp)

def blueprintOf (blueprints : Blueprints) (spec : ISOSpecialization) : Option Blueprint :=
  (blueprints.find? (·.1 = spec)).map Prod.snd

/-- `blueprints.get(key)`: a specialization is a string, and equals its value. -/
def blueprintAt (blueprints : Blueprints) (key : String) : Option Blueprint :=
  (blueprints.find? (·.1.value = key)).map Prod.snd

/-! ## Batches -/

def Outcome.findings : Outcome → List FindingOutput
  | .found findings => findings
  | .timedOut => []
  | .failed => []

/-- `BaseISO.execute`. -/
def Agent.execute (agent : Agent) (bp : Blueprint) : Option FindingBatch :=
  if agent.batches bp then some ⟨bp.id, agent.agentId, (agent.run bp).findings⟩ else none

/-- `_dispatch_agents`. -/
def dispatchAgents (agents : List Agent) (blueprints : Blueprints) : List FindingBatch :=
  agents.filterMap fun agent => (blueprintOf blueprints agent.specialization).bind agent.execute

/-! ## The filter -/

def keeps (scope : BlueprintScope) (f : FindingOutput) : Bool :=
  (scope.filePatterns.isEmpty ||
    scope.filePatterns.any (matchesPattern (slashes f.filePath))) &&
  (scope.checkTypes.isEmpty || scope.checkTypes.contains f.vulnerabilityType)

def filterBatch (get : String → Option Blueprint) (batch : FindingBatch) : FindingBatch :=
  match get batch.blueprintId with
  | none => batch
  | some bp => { batch with findings := batch.findings.filter (keeps bp.scope) }

/-- `_apply_blueprint_scope_filter`. -/
def applyBlueprintScopeFilter (batches : List FindingBatch) (blueprints : Blueprints) :
    List FindingBatch :=
  batches.map (filterBatch (blueprintAt blueprints))

/-- What is left of the batches in `run_audit` when the filter has run. -/
def runAudit (request : AuditRequest) (agents : List Agent) :
    Except String (Blueprints × List FindingBatch) := do
  let blueprints ← createBlueprints request agents
  return (blueprints, applyBlueprintScopeFilter (dispatchAgents agents blueprints) blueprints)

/-- The finding lies within the file patterns and the check types. -/
structure InScope (scope : BlueprintScope) (f : FindingOutput) : Prop where
  file : scope.filePatterns ≠ [] →
    ∃ pattern ∈ scope.filePatterns, matchesPattern (slashes f.filePath) pattern = true
  check : scope.checkTypes ≠ [] → f.vulnerabilityType ∈ scope.checkTypes

/-- Every finding that is kept lies within the blueprint its batch was issued for. -/
def KeptInScope (blueprints : Blueprints) (kept : List FindingBatch) : Prop :=
  ∀ batch ∈ kept, ∀ f ∈ batch.findings, ∀ p ∈ blueprints, p.2.id = batch.blueprintId →
    InScope p.2.scope f

/-! ## What the filter keeps -/

theorem keeps_iff (scope : BlueprintScope) (f : FindingOutput) :
    keeps scope f = true ↔ InScope scope f := by
  rw [keeps, Bool.and_eq_true, Bool.or_eq_true, Bool.or_eq_true, List.isEmpty_iff,
    List.isEmpty_iff, List.any_eq_true, List.contains_iff_mem]
  constructor
  · rintro ⟨hfile, hcheck⟩
    exact ⟨fun hne => hfile.resolve_left hne, fun hne => hcheck.resolve_left hne⟩
  · rintro ⟨hfile, hcheck⟩
    exact ⟨or_iff_not_imp_left.mpr hfile, or_iff_not_imp_left.mpr hcheck⟩

/-- A batch is filtered when its blueprint is found, and else kept whole. -/
theorem mem_filterBatch (get : String → Option Blueprint) (batch : FindingBatch)
    (f : FindingOutput) :
    f ∈ (filterBatch get batch).findings ↔
      f ∈ batch.findings ∧ ∀ bp, get batch.blueprintId = some bp → InScope bp.scope f := by
  rw [filterBatch]
  cases get batch.blueprintId with
  | none => simp
  | some bp => simp [List.mem_filter, keeps_iff]

section
variable {request : AuditRequest} {agents : List Agent} {blueprints : Blueprints}

theorem createBlueprint_ok {agent : Agent} {bp : Blueprint}
    (h : createBlueprint request agent = .ok bp) :
    bp.id = blueprintId request agent.specialization ∧
      bp.scope = ⟨filePatterns request, request.checkTypes, request.languages⟩ := by
  rw [createBlueprint] at h
  split at h
  · cases h
  · split_ifs at h
    obtain rfl := Except.ok.inj h
    exact ⟨rfl, rfl⟩

theorem createBlueprints_ok (h : createBlueprints request agents = .ok blueprints) :
    ∀ p ∈ blueprints, p.2.id = blueprintId request p.1 ∧
      p.2.scope = ⟨filePatterns request, request.checkTypes, request.languages⟩ := by
  induction agents generalizing blueprints with
  | nil =>
    obtain rfl := Except.ok.inj h
    simp
  | cons agent agents ih =>
    rw [createBlueprints, List.mapM_cons, ← createBlueprints] at h
    cases hbp : createBlueprint request agent with
    | error message =>
      rw [hbp] at h
      cases h
    | ok bp =>
      rw [hbp] at h
      cases hrest : createBlueprints request agents with
      | error message =>
        rw [hrest] at h
        cases h
      | ok rest =>
        rw [hrest] at h
        obtain rfl := Except.ok.inj h
        exact List.forall_mem_cons.mpr ⟨createBlueprint_ok hbp, ih hrest⟩

/-- No id is the value of a specialization. -/
theorem blueprintAt_id (spec : ISOSpecialization) :
    blueprintAt blueprints (blueprintId request spec) = none := by
  have hvalue : ∀ other : ISOSpecialization, '-' ∉ other.value.toList := by
    intro other
    cases other <;> decide +kernel
  rw [blueprintAt, Option.map_eq_none_iff, List.find?_eq_none]
  intro p _
  rw [decide_eq_true_eq]
  intro hid
  refine hvalue p.1 ?_
  rw [hid, blueprintId]
  simp

theorem mem_of_blueprintOf {spec : ISOSpecialization} {bp : Blueprint}
    (h : blueprintOf blueprints spec = some bp) : (spec, bp) ∈ blueprints := by
  obtain ⟨p, hp, rfl⟩ := Option.map_eq_some_iff.mp h
  have hspec : p.1 = spec := by simpa using List.find?_some hp
  rw [← hspec]
  exact List.mem_of_find?_eq_some hp

/-- The batches an audit collects. -/
theorem mem_dispatchAgents (batch : FindingBatch) :
    batch ∈ dispatchAgents agents blueprints ↔ ∃ agent ∈ agents, ∃ bp,
      blueprintOf blueprints agent.specialization = some bp ∧ agent.batches bp = true ∧
        batch = ⟨bp.id, agent.agentId, (agent.run bp).findings⟩ := by
  rw [dispatchAgents, List.mem_filterMap]
  simp only [Option.bind_eq_some_iff, Agent.execute, Option.ite_none_right_eq_some,
    Option.some.injEq]
  constructor
  · rintro ⟨agent, hagent, bp, hbp, hbatches, rfl⟩
    exact ⟨agent, hagent, bp, hbp, hbatches, rfl⟩
  · rintro ⟨agent, hagent, bp, hbp, hbatches, rfl⟩
    exact ⟨agent, hagent, bp, hbp, hbatches, rfl⟩

/-- The filter drops nothing. -/
theorem applyBlueprintScopeFilter_dispatch
    (h : createBlueprints request agents = .ok blueprints) :
    applyBlueprintScopeFilter (dispatchAgents agents blueprints) blueprints =
      dispatchAgents agents blueprints := by
  have hsame : ∀ batch ∈ dispatchAgents agents blueprints,
      filterBatch (blueprintAt blueprints) batch = batch := by
    intro batch hbatch
    obtain ⟨agent, -, bp, hbp, -, rfl⟩ := (mem_dispatchAgents batch).mp hbatch
    obtain ⟨hid, -⟩ := createBlueprints_ok h _ (mem_of_blueprintOf hbp)
    rw [filterBatch, hid, blueprintAt_id]
  rw [applyBlueprintScopeFilter, List.map_congr_left hsame, List.map_id']

/-- What is kept lies in scope just when the agents report nothing else. -/
theorem keptInScope_iff {kept : List FindingBatch}
    (h : runAudit request agents = .ok (blueprints, kept)) :
    KeptInScope blueprints kept ↔ ∀ agent ∈ agents, ∀ bp,
      blueprintOf blueprints agent.specialization = some bp → agent.batches bp = true →
        ∀ f ∈ (agent.run bp).findings, InScope bp.scope f := by
  rw [runAudit] at h
  cases hcreate : createBlueprints request agents with
  | error message =>
    rw [hcreate] at h
    cases h
  | ok created =>
    rw [hcreate] at h
    obtain ⟨rfl, rfl⟩ := Prod.mk.inj (Except.ok.inj h)
    rw [applyBlueprintScopeFilter_dispatch hcreate]
    constructor
    · intro hkept agent hagent bp hbp hbatches f hf
      exact hkept _ ((mem_dispatchAgents _).mpr ⟨agent, hagent, bp, hbp, hbatches, rfl⟩) f hf
        _ (mem_of_blueprintOf hbp) rfl
    · intro hall batch hbatch f hf p hp _
      obtain ⟨agent, hagent, bp, hbp, hbatches, rfl⟩ := (mem_dispatchAgents batch).mp hbatch
      rw [(createBlueprints_ok hcreate p hp).2,
        ← (createBlueprints_ok hcreate _ (mem_of_blueprintOf hbp)).2]
      exact hall agent hagent bp hbp hbatches f hf

end

/-! ## One agent -/

def pythonRequest : AuditRequest where
  auditRunId := "7f0c2d1e-0b7a-4c58-9a51-2f3f5e6d7c8b"
  files := ["app.py"]
  languages := ["python"]
  checkTypes := [.sqlInjection]

def securityAgent (findings : List FindingOutput) : Agent where
  agentId := "security-iso"
  specialization := .security
  maxTokens := 4000
  maxDurationSeconds := 300
  temperature := 1 / 10
  run _ := .found findings
  batches _ := true

def pythonBlueprint : Blueprint where
  id := blueprintId pythonRequest .security
  scope := ⟨["*.py"], [.sqlInjection], ["python"]⟩
  maxTokens := 4000
  maxDurationSeconds := 300
  temperature := 1 / 10

theorem createBlueprints_security (findings : List FindingOutput) :
    createBlueprints pythonRequest [securityAgent findings] =
      .ok [(.security, pythonBlueprint)] := by
  have hpatterns : filePatterns pythonRequest = ["*.py"] := by decide +kernel
  have hadmit : ["*.py"].forM admitPattern = .ok () := by decide +kernel
  have hcreate : createBlueprint pythonRequest (securityAgent findings) = .ok pythonBlueprint := by
    rw [createBlueprint, hpatterns, hadmit]
    have hlow : ¬ (securityAgent findings).temperature < 0 := by norm_num [securityAgent]
    have hhigh : ¬ 1 < (securityAgent findings).temperature := by norm_num [securityAgent]
    simp only [hlow, hhigh, or_self, if_false]
    rfl
  rw [createBlueprints, List.mapM_cons, hcreate]
  rfl

theorem runAudit_security (findings : List FindingOutput) :
    runAudit pythonRequest [securityAgent findings] =
      .ok ([(.security, pythonBlueprint)],
        [⟨pythonBlueprint.id, "security-iso", findings⟩]) := by
  have hdispatch := applyBlueprintScopeFilter_dispatch (createBlueprints_security findings)
  rw [runAudit, createBlueprints_security]
  exact congrArg
    (fun batches => Except.ok ([(ISOSpecialization.security, pythonBlueprint)], batches)) hdispatch

theorem keptInScope_iff_security :
    KeptInScope [(.security, pythonBlueprint)]
      [⟨pythonBlueprint.id, "security-iso", [⟨"src/app.py", .sqlInjection⟩]⟩] := by
  refine (keptInScope_iff (runAudit_security [⟨"src/app.py", .sqlInjection⟩])).mpr ?_
  intro agent hagent bp hbp _ f hf
  obtain rfl := List.mem_singleton.mp hagent
  obtain rfl : pythonBlueprint = bp := by simpa [blueprintOf, securityAgent] using hbp
  obtain rfl : f = ⟨"src/app.py", .sqlInjection⟩ := by
    simpa [securityAgent, Outcome.findings] using hf
  exact (keeps_iff _ _).mp (by decide +kernel)

/-- A finding of another type in a file of another kind is kept. -/
theorem finding_out_of_scope_is_kept :
    ∃ blueprints kept, runAudit pythonRequest [securityAgent [⟨"deploy.sh", .xss⟩]] =
      .ok (blueprints, kept) ∧ ¬ KeptInScope blueprints kept := by
  refine ⟨_, _, runAudit_security _, fun hkept => ?_⟩
  have hscope := hkept _ (List.mem_singleton_self _) _ (List.mem_singleton_self _) _
    (List.mem_singleton_self _) rfl
  have hkeeps : keeps pythonBlueprint.scope ⟨"deploy.sh", .xss⟩ = false := by decide +kernel
  rw [(keeps_iff _ _).mpr hscope] at hkeeps
  cases hkeeps

end SpineFormal.Verify
