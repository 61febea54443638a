import SpineFormal.Reproducibility.Manifest

/-!
# Replaying a manifest

A replay compares the manifest with the current files, database and git, and dispatches the
captured directive again. Drift of the role prompt or of the pipeline blocks it, unless it is
forced. An input is compared only where it can be read.
-/

namespace SpineFormal.Reproducibility

open Json
open Migration (hexdigestBytes truthy)
set_option autoImplicit false

/-! ## Drift -/

inductive DriftTag where
  | rolePromptDrifted
  | pipelineManifestDrifted
  | pipelineVersionDrifted
  | gitHeadDrifted
  | gitDirty
  | skillsDrifted
  deriving DecidableEq

namespace DriftTag

def text : DriftTag → String
  | rolePromptDrifted => "role_prompt_drifted"
  | pipelineManifestDrifted => "pipeline_manifest_drifted"
  | pipelineVersionDrifted => "pipeline_version_drifted"
  | gitHeadDrifted => "git_head_drifted"
  | gitDirty => "git_dirty"
  | skillsDrifted => "skills_drifted"

/-- `CRITICAL_DRIFT`. -/
def critical : DriftTag → Bool
  | rolePromptDrifted | pipelineManifestDrifted | pipelineVersionDrifted => true
  | gitHeadDrifted | gitDirty | skillsDrifted => false

end DriftTag

/-- `current and current != captured`. -/
def differs (current : Option String) (captured : String) : Bool :=
  current.any fun s => s ≠ "" && s ≠ captured

def tagIf (drifted : Bool) (tag : DriftTag) : List DriftTag := if drifted then [tag] else []

def versionQuery (projectId : String) : String :=
  "SELECT pipeline_version FROM spine_lifecycle.project WHERE id::text = '" ++ esc projectId ++
    "' LIMIT 1;"

/-- A dictionary of the registry; two dictionaries are equal when their sorted texts are. -/
def skillsObject (skills : List (String × String)) : Value :=
  .obj (skills.map fun s => (s.1, .str s.2))

/-- `detect_drift`; `none` is an exception. -/
def detectDrift (w : World) (m : RunManifest) : Option (List DriftTag) := do
  let role ← w.sha256File m.role.rolePromptPath.1
  let pipe ← w.sha256File m.pipeline.pipelineManifestPath.1
  let version ← w.query (versionQuery m.projectId.1)
  let head ← w.gitOutput ["rev-parse", "HEAD"]
  let status ← w.gitOutput ["status", "--porcelain"]
  let live ← w.activeSkills
  return tagIf (differs role m.role.rolePromptSha256.1) .rolePromptDrifted ++
    tagIf (differs pipe m.pipeline.pipelineSha256.1) .pipelineManifestDrifted ++
    tagIf (differs version m.pipeline.pipelineVersion.1) .pipelineVersionDrifted ++
    tagIf (differs (head.map String.ofList) m.gitState.commitSha.1) .gitHeadDrifted ++
    tagIf (status.any fun text => trimBy pySpace text ≠ []) .gitDirty ++
    tagIf (!live.isEmpty &&
      dumps (skillsObject live) ≠ dumps (.obj m.role.skillsVersions.members)) .skillsDrifted

/-! ## Dispatch -/

structure Payload where
  subsystem : String
  role : String
  directive : String
  projectId : String
  modelOverride : String
  pipelineVersion : String
  deriving DecidableEq

def phaseToSubsystem (phase : String) : String :=
  let starts := fun words : List String => words.any fun word => word.toList.isPrefixOf phase.toList
  if starts ["plan", "intake", "prd", "trd"] then "plan"
  else if starts ["verify", "qa", "audit"] then "verify"
  else "build"

def buildPayload (m : RunManifest) (overrideModel : Option String) : Payload where
  subsystem := phaseToSubsystem m.phase.1
  role := m.role.roleName.1
  directive := m.inputs.directiveText.1
  projectId := m.projectId.1
  modelOverride := orElse overrideModel m.runtime.modelId.1
  pipelineVersion := m.pipeline.pipelineVersion.1

/-- What the run of `router.sh` comes to. -/
inductive RouterAnswer where
  | exit (code : Nat) (stdout stderr : List Char)
  /-- It runs out of time or is not found. -/
  | failed (message : String)
  | raised

/-- What follows a mark in a text that has it. -/
def afterMark (mark : List Char) : List Char → Option (List Char)
  | [] => none
  | c :: s => if mark.isPrefixOf (c :: s) then some ((c :: s).drop mark.length) else afterMark mark s

def directiveIdOf (stdout : List Char) : Option String :=
  ((afterMark "\"directive_id\":\"".toList stdout).or
    (afterMark "'directive_id':'".toList stdout)).map fun s =>
      String.ofList ((s.takeWhile fun c => c ≠ '"').takeWhile fun c => c ≠ '\'')

/-- `_dispatch` of a router that is there; `none` is an exception. -/
def RouterAnswer.outcome : RouterAnswer → Option (Bool × Option String × Option String)
  | .raised => none
  | .failed message => some (false, none, some ("dispatch failed: " ++ message))
  | .exit 0 stdout _ => some (true, directiveIdOf (trimBy pySpace stdout), none)
  | .exit code _ stderr =>
    let text := trimBy pySpace stderr
    some (false, none,
      some (if text = [] then "router.sh exit " ++ toString code else String.ofList text))

structure ReplayPlan where
  manifestUuid : Uuid
  driftSummary : List DriftTag
  payloadPreview : Payload
  wouldDispatch : Bool

structure ReplayResult where
  manifestUuid : Uuid
  success : Bool
  newDirectiveId : Option String := none
  originalOutputHash : Option String := none
  newOutputHash : Option String := none
  outputDrift : Bool := false
  driftSummary : List DriftTag := []
  error : Option String := none

inductive ReplayOutcome where
  | plan (p : ReplayPlan)
  | result (r : ReplayResult)
  | raised

structure ReplayRun where
  /-- The payload with which the router was run. -/
  dispatched : Option Payload
  outcome : ReplayOutcome

/-- The current state, the router where there is one, and what the queries meet after it has run. -/
structure Surroundings where
  current : World
  routerPath : String
  router : Option (Payload → RouterAnswer)
  after : World

def outputHashQuery (directiveId : String) : String :=
  "SELECT output_hash FROM spine_audit.audit_event WHERE subject_id = '" ++ esc directiveId ++
    "' AND output_hash IS NOT NULL ORDER BY ts DESC LIMIT 1;"

/-- `_fetch_output_hash`. -/
def fetchOutputHash (w : World) (directiveId : String) : Option (Option String) :=
  w.query (outputHashQuery directiveId)

/-- `manifest.metadata.get("output_hash") or _fetch_output_hash(...)`. -/
def originalHash (w : World) (m : RunManifest) : Option (Option Value) :=
  match lookup m.metadata.members "output_hash" with
  | some v =>
    if truthy v then some (some v)
    else (fetchOutputHash w m.directiveId.1).map (Option.map .str)
  | none => (fetchOutputHash w m.directiveId.1).map (Option.map .str)

def blockedError (critical : List DriftTag) : String :=
  let names := (critical.map DriftTag.text).insertionSort (· ≤ ·)
  "critical drift blocks replay: [" ++
    ", ".intercalate (names.map fun name => "'" ++ name ++ "'") ++
    "]; rerun with force_drift=True to override"

/-- The result after a dispatch; an original hash that is no text is refused by the model. -/
def replayResult (s : Surroundings) (m : RunManifest) (drift : List DriftTag)
    (original : Option Value) (newId : Option String) : ReplayOutcome :=
  match (match newId with
    | some id => if id = "" then some none else fetchOutputHash s.after id
    | none => some none) with
  | none => .raised
  | some newHash =>
    let result := fun hash : Option String => ReplayOutcome.result
      { manifestUuid := m.manifestUuid, success := true, newDirectiveId := newId
        originalOutputHash := hash, newOutputHash := newHash
        outputDrift := hash.any fun h => newHash.any fun n => n ≠ h
        driftSummary := drift }
    match original with
    | none => result none
    | some (.str hash) => result (some hash)
    | some _ => .raised

/-- What follows once nothing blocks the replay. -/
def dispatchReplay (s : Surroundings) (m : RunManifest) (drift : List DriftTag)
    (payload : Payload) : ReplayRun :=
  match originalHash s.current m with
  | none => ⟨none, .raised⟩
  | some original =>
    match s.router with
    | none =>
      ⟨none, .result { manifestUuid := m.manifestUuid, success := false, driftSummary := drift
                       error := some ("router.sh missing at " ++ s.routerPath) }⟩
    | some router =>
      ⟨some payload,
        match (router payload).outcome with
        | none => .raised
        | some (false, _, error) =>
          .result { manifestUuid := m.manifestUuid, success := false, driftSummary := drift
                    error := error }
        | some (true, newId, _) => replayResult s m drift original newId⟩

/-- `replay`. The one value of `format_version` is supported. -/
def replay (s : Surroundings) (m : RunManifest) (dryRun forceDrift : Bool)
    (overrideModel : Option String) : ReplayRun :=
  match detectDrift s.current m with
  | none => ⟨none, .raised⟩
  | some drift =>
    let critical := drift.filter DriftTag.critical
    let payload := buildPayload m overrideModel
    if dryRun then
      ⟨none, .plan { manifestUuid := m.manifestUuid, driftSummary := drift
                     payloadPreview := payload, wouldDispatch := forceDrift || critical.isEmpty }⟩
    else if !critical.isEmpty && !forceDrift then
      ⟨none, .result { manifestUuid := m.manifestUuid, success := false, driftSummary := drift
                       outputDrift := true, error := some (blockedError critical) }⟩
    else dispatchReplay s m drift payload

/-! ## What a dispatch says about the inputs -/

theorem eq_of_not_differs {s captured : String} (hne : s ≠ "")
    (h : differs (some s) captured = false) : s = captured := by
  by_contra hdiffers
  have htrue : differs (some s) captured = true := by simp [differs, hne, hdiffers]
  rw [htrue] at h
  cases h

theorem hexdigestBytes_ne_empty (bs : Bytes) : hexdigestBytes bs ≠ "" := by
  intro h
  have hlength := congrArg (fun s => s.toList.length) h
  simp [hexdigestBytes] at hlength

theorem mem_tagIf {drifted : Bool} {tag t : DriftTag} :
    t ∈ tagIf drifted tag ↔ drifted = true ∧ t = tag := by
  unfold tagIf
  cases drifted <;> simp

/-- What was read, and the critical tags that it gives. -/
theorem detectDrift_spec {w : World} {m : RunManifest} {drift : List DriftTag}
    (h : detectDrift w m = some drift) :
    ∃ role pipe version, w.sha256File m.role.rolePromptPath.1 = some role ∧
      w.sha256File m.pipeline.pipelineManifestPath.1 = some pipe ∧
      w.query (versionQuery m.projectId.1) = some version ∧
      (DriftTag.rolePromptDrifted ∈ drift ↔ differs role m.role.rolePromptSha256.1 = true) ∧
      (DriftTag.pipelineManifestDrifted ∈ drift ↔
        differs pipe m.pipeline.pipelineSha256.1 = true) ∧
      (DriftTag.pipelineVersionDrifted ∈ drift ↔
        differs version m.pipeline.pipelineVersion.1 = true) := by
  unfold detectDrift at h
  obtain ⟨role, hrole, h⟩ := Option.bind_eq_some_iff.mp h
  obtain ⟨pipe, hpipe, h⟩ := Option.bind_eq_some_iff.mp h
  obtain ⟨version, hversion, h⟩ := Option.bind_eq_some_iff.mp h
  obtain ⟨head, -, h⟩ := Option.bind_eq_some_iff.mp h
  obtain ⟨status, -, h⟩ := Option.bind_eq_some_iff.mp h
  obtain ⟨live, -, h⟩ := Option.bind_eq_some_iff.mp h
  obtain rfl := Option.some.inj h
  refine ⟨role, pipe, version, hrole, hpipe, hversion, ?_, ?_, ?_⟩ <;>
    simp only [List.mem_append, mem_tagIf, reduceCtorEq, and_true, and_false, or_false, false_or]

/-- An unforced replay dispatches only where no critical drift was found. -/
theorem not_critical_of_dispatched {s : Surroundings} {m : RunManifest} {dryRun : Bool}
    {overrideModel : Option String} {p : Payload}
    (h : (replay s m dryRun false overrideModel).dispatched = some p) :
    ∃ drift, detectDrift s.current m = some drift ∧ ∀ tag ∈ drift, tag.critical = false := by
  unfold replay at h
  cases hdrift : detectDrift s.current m with
  | none =>
    rw [hdrift] at h
    cases h
  | some drift =>
    rw [hdrift] at h
    dsimp only at h
    refine ⟨drift, rfl, fun tag htag => ?_⟩
    by_contra hcritical
    have hmem : tag ∈ drift.filter DriftTag.critical :=
      List.mem_filter.mpr ⟨htag, by simpa using hcritical⟩
    have hblocked : (!(drift.filter DriftTag.critical).isEmpty && !false) = true := by
      cases hfilter : drift.filter DriftTag.critical with
      | nil =>
        rw [hfilter] at hmem
        exact absurd hmem List.not_mem_nil
      | cons t ts => rfl
    rw [if_pos hblocked] at h
    split at h <;> cases h

theorem sha256File_ok {w : World} {path : String} {bytes : Bytes}
    (h : w.readBytes path = .ok bytes) : w.sha256File path = some (some (hexdigestBytes bytes)) := by
  rw [World.sha256File, h]
  rfl

theorem query_ne_empty {w : World} {sql text : String} (h : w.query sql = some (some text)) :
    text ≠ "" := by
  obtain ⟨out, -, hout⟩ := Option.map_eq_some_iff.mp h
  obtain ⟨stdout, -, hstdout⟩ := Option.bind_eq_some_iff.mp hout
  dsimp only at hstdout
  by_cases hempty : trimBy pySpace stdout = []
  · rw [if_pos hempty] at hstdout
    cases hstdout
  · rw [if_neg hempty] at hstdout
    rintro rfl
    exact hempty (by simpa using congrArg String.toList (Option.some.inj hstdout))

/-- Every file gives the same answer, and so does the database; git and the skills give none. -/
def sampleWorld (file : Answer Bytes) : World where
  readBytes := fun _ => file
  psql := fun _ => .ok "v1\n".toList
  git := fun _ => .failed
  skills := .failed

def sampleSurroundings (file : Answer Bytes) : Surroundings where
  current := sampleWorld file
  routerPath := "router.sh"
  router := some fun _ => .exit 0 [] []
  after := sampleWorld file

/-- The hash of the empty file. -/
def emptySha : String := "e3b0c44298fc1c149afbf4c8996fb92427ae41e4649b934ca495991b7852b855"

/-- A manifest of which both files were empty. -/
def sampleManifest : RunManifest where
  manifestUuid := ⟨1, 2, 3, 4, 5⟩
  createdAt := .naive ⟨0, zero_lt_maxWall⟩
  projectId := Stripped.of "7"
  phase := Stripped.of "build_in_progress"
  directiveId := Stripped.of "d1"
  inputs := { directiveText := Stripped.of "go", directiveSha256 := Stripped.of "x" }
  pipeline := ⟨Stripped.of "p.yaml", Stripped.of "v1", Stripped.of emptySha⟩
  role := roleOf "engineer" "engineer.md" emptySha []
  runtime := { modelId := Stripped.of "m", modelProvider := Stripped.of "q" }
  gitState := ⟨Stripped.of "unknown", Stripped.of "unknown", false, []⟩
  dependencies := {}
  metadata := Dict.of []

def samplePayload : Payload := ⟨"build", "engineer", "go", "7", "m", "v1"⟩

theorem dispatched_sample :
    (replay (sampleSurroundings (.ok [])) sampleManifest false false none).dispatched =
      some samplePayload := by
  decide +kernel

/-- Without its files the replay dispatches too. -/
theorem dispatched_unread :
    (replay (sampleSurroundings .failed) sampleManifest false false none).dispatched =
      some samplePayload := by
  decide +kernel

end SpineFormal.Reproducibility
