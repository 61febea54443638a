import SpineFormal.Base.LineFile
import SpineFormal.Plan.CapabilityChecker
import SpineFormal.Plan.PipelineDrift

/-!
# Phases that change under a project

`plan/pipeline/phase_evolution.py`: what has changed between two manifests, what a project
in flight would need for it, and the migration. The write itself is
`migrate_locked_project` of `project_lock.py`.
-/

namespace SpineFormal.Plan

open Py Psql
set_option autoImplicit false

inductive EvolutionType where
  | phaseAdded | phaseRemoved | phaseRenamed | phaseReordered | gateChanged | rollbackChanged
  deriving DecidableEq

structure PhaseEvolutionEvent where
  eventType : EvolutionType
  pipelineVersionOld : String
  pipelineVersionNew : String
  phaseId : String
  detail : Dict
  rationale : String
  autoMigratable : Bool

structure MigrationPlan where
  projectId : String
  event : PhaseEvolutionEvent
  steps : List String
  requiresUserAction : Bool
  blockers : List String

def strip (s : String) : String := String.ofList (trimBy pySpace s.toList)

/-- Closed by default. -/
def canAutoMigrate : EvolutionType → Bool
  | .phaseAdded | .phaseReordered => true
  | _ => false

/-- `_phase_map`: the phases that have an id, under it. -/
def phaseMap (m : PipelineManifest) : Option Dict :=
  m.phases.foldlM (fun out p =>
    if (Dict.get p (.str "id")).truthy then do
      return Dict.set out (← (Dict.get p (.str "id")).asKey) (.dict p)
    else return out) []

/-- `_phase_order`. -/
def phaseOrder (m : PipelineManifest) : List PyValue :=
  (m.phases.map (Dict.get · (.str "id"))).filter PyValue.truthy

def isKeyOf (d : Dict) (v : PyValue) : Bool :=
  match v with
  | .atom a => (Dict.get? d a).isSome
  | _ => false

/-- The phases of one map whose ids the other does not have. -/
def phasesOutside (d other : Dict) : List Dict :=
  (d.filter fun m => !(Dict.get? other m.1).isSome).filterMap fun m => m.2.asDict

section
variable (reprOf : PyValue → String) (copySet : List Atom → List Atom)

/-- `str(p.get(key) or "").strip()`. -/
def fieldText (p : Dict) (key : String) : String :=
  strip (pyStr reprOf ((Dict.get p (.str key)).or (.text "")))

def ownLabel (p : Dict) (key : String) : Option String :=
  match Dict.get p (.str key) with
  | .atom (.str s) => if strip s ≠ "" then some (strip s) else none
  | _ => none

/-- `_label_for`: the label, else the name, else the id. -/
def labelFor (p : Dict) : String :=
  ((ownLabel p "label").or (ownLabel p "name")).getD (fieldText reprOf p "id")

def signature (p : Dict) : String × String × String :=
  (labelFor reprOf p, fieldText reprOf p "subsystem", fieldText reprOf p "artifact")

/-- Pairs of a removed and an added phase, and what is left of the added and the removed. -/
structure Pairing where
  renames : List (Dict × Dict)
  addsLeft : List Dict
  remsLeft : List Dict

/-- `rems_left.remove(r)`, where `r` is the first phase that was found: an equal one before it
goes, or `r` itself. -/
def removePhase (found : Dict → Bool) (r : Dict) (rems : List Dict) : List Dict :=
  rems.eraseP fun r' => found r' || PyValue.eq (.dict r') (.dict r)

/-- `_detect_renames`: an added phase takes the first removed one with its signature. -/
def detectRenames : List Dict → List Dict → Pairing
  | [], rems => ⟨[], [], rems⟩
  | a :: adds, rems =>
    let found : Dict → Bool := fun r => signature reprOf r = signature reprOf a
    let paired := if signature reprOf a = ("", "", "") then none else rems.find? found
    match paired with
    | some r =>
      let rest := detectRenames adds (removePhase found r rems)
      { rest with renames := (r, a) :: rest.renames }
    | none =>
      let rest := detectRenames adds rems
      { rest with addsLeft := a :: rest.addsLeft }

/-- `_mk` and the flag that is set in the end; an id that is no text is a `ValidationError`. -/
def mkEvent (t : EvolutionType) (versionOld versionNew : String) (pid : PyValue) (detail : Dict)
    (rationale : String) : Option PhaseEvolutionEvent :=
  match pid with
  | .atom (.str phaseId) => some
      { eventType := t
        pipelineVersionOld := versionOld
        pipelineVersionNew := versionNew
        phaseId, detail, rationale
        autoMigratable := canAutoMigrate t }
  | _ => none

def renamedEvent (vo vn : String) (pair : Dict × Dict) : Option PhaseEvolutionEvent :=
  let oldId := Dict.get pair.1 (.str "id")
  let newId := Dict.get pair.2 (.str "id")
  mkEvent .phaseRenamed vo vn newId
    [(.str "from", oldId), (.str "to", newId), (.str "label", .text (labelFor reprOf pair.2)),
     (.str "from_label", .text (labelFor reprOf pair.1)),
     (.str "subsystem", .text (fieldText reprOf pair.2 "subsystem")),
     (.str "artifact", .text (fieldText reprOf pair.2 "artifact"))]
    ("phase id changed (" ++ reprOf oldId ++ " -> " ++ reprOf newId ++ "); label=" ++
      reprOf (.text (labelFor reprOf pair.2)) ++ ", subsystem/artifact unchanged")

def addedEvent (vo vn : String) (p : Dict) : Option PhaseEvolutionEvent :=
  let pid := Dict.get p (.str "id")
  mkEvent .phaseAdded vo vn pid [] ("new phase " ++ reprOf pid)

def removedEvent (vo vn : String) (p : Dict) : Option PhaseEvolutionEvent :=
  let pid := Dict.get p (.str "id")
  mkEvent .phaseRemoved vo vn pid [] ("phase " ++ reprOf pid ++ " removed")

/-- The first place at which the order of the phases on both sides differs. -/
def reorderedEvents (vo vn : String) (oOrder nOrder : List PyValue) :
    Option (List PhaseEvolutionEvent) :=
  if !eqElems oOrder nOrder && !oOrder.isEmpty && !nOrder.isEmpty then
    let moved := nOrder.zipIdx.find? fun pid =>
      match oOrder[pid.2]? with
      | some o => !o.eq pid.1
      | none => true
    match moved with
    | some pid => do
      let event ← mkEvent .phaseReordered vo vn pid.1
        [(.str "old_order", .list oOrder), (.str "new_order", .list nOrder)]
        ("phase order changed at " ++ reprOf pid.1)
      return [event]
    | none => some []
  else some []

/-- An event when a field of a phase has changed. -/
def fieldEvents (t : EvolutionType) (field : String) (rationale : String → String)
    (vo vn : String) (oMap nMap : Dict) (pid : Atom) : Option (List PhaseEvolutionEvent) := do
  let o := Dict.get (← (← Dict.get? oMap pid).asDict) (.str field)
  let n := Dict.get (← (← Dict.get? nMap pid).asDict) (.str field)
  if o.eq n then return []
  else
    let event ← mkEvent t vo vn (.atom pid)
      [(.str ("old_" ++ field), o), (.str ("new_" ++ field), n)]
      (rationale (reprOf (.atom pid)))
    return [event]

def gateEvents : String → String → Dict → Dict → Atom → Option (List PhaseEvolutionEvent) :=
  fieldEvents reprOf .gateChanged "gate" fun pid => "gate on " ++ pid ++ " changed"

def rollbackEvents : String → String → Dict → Dict → Atom → Option (List PhaseEvolutionEvent) :=
  fieldEvents reprOf .rollbackChanged "rollback_to" fun pid =>
    "rollback_to on " ++ pid ++ " changed"

/-- `detect_evolution_events`. -/
def detectEvolutionEvents (old new : PipelineManifest) : Option (List PhaseEvolutionEvent) := do
  let vo ← computePipelineVersion reprOf copySet old
  let vn ← computePipelineVersion reprOf copySet new
  if vo = vn then return []
  else
    let oMap ← phaseMap old
    let nMap ← phaseMap new
    let pairing := detectRenames reprOf (phasesOutside nMap oMap) (phasesOutside oMap nMap)
    let renamed ← pairing.renames.mapM (renamedEvent reprOf vo vn)
    let added ← pairing.addsLeft.mapM (addedEvent reprOf vo vn)
    let removed ← pairing.remsLeft.mapM (removedEvent reprOf vo vn)
    let reordered ← reorderedEvents reprOf vo vn ((phaseOrder old).filter (isKeyOf nMap))
      ((phaseOrder new).filter (isKeyOf oMap))
    let both := copySet ((oMap.map Prod.fst).filter fun k => (Dict.get? nMap k).isSome)
    let changed ← both.mapM fun pid => do
      return (← gateEvents reprOf vo vn oMap nMap pid) ++
        (← rollbackEvents reprOf vo vn oMap nMap pid)
    return renamed ++ added ++ removed ++ reordered ++ changed.flatten

/-! ## The plan of a migration -/

def currentPhaseSql : List Char :=
  "SELECT current_phase FROM ".toList ++ "spine_lifecycle.project ".toList ++ whereProject ++
    " LIMIT 1;".toList

section
variable (isalnumBeyond : Char → Bool) (B : Bare)

/-- `_current_phase_of`. -/
def currentPhaseOf (table : ProjectTable) (projectId : String) : Option String := do
  let values ← psqlBound isalnumBeyond B currentPhaseSql [("pid".toList, projectId.toList)]
  match values with
  | [pid] =>
    let row := table.find? (·.isProject (String.ofList pid))
    return strip ((row.map ProjectRow.currentPhase).getD "")
  | _ => none

def blockersFor (event : PhaseEvolutionEvent) (cur : String) : List String :=
  if event.eventType = .phaseRemoved ∧ cur = event.phaseId then
    ["project is currently in '" ++ event.phaseId ++ "', which the new manifest removes"]
  else []

def renameSteps (event : PhaseEvolutionEvent) (cur : String) : List String :=
  let oldId := Dict.get event.detail (.str "from")
  let newId := Dict.get event.detail (.str "to")
  if event.eventType = .phaseRenamed ∧ PyValue.eq (.text cur) oldId = true then
    ["rewrite project.current_phase: " ++ pyStr reprOf oldId ++ " -> " ++ pyStr reprOf newId,
     "rewrite phase_history.phase rows for this project (same swap)"]
  else []

def gateSteps (event : PhaseEvolutionEvent) : List String :=
  if event.eventType = .gateChanged then
    ["surface gate change for " ++ reprOf (.text event.phaseId) ++ " to operator"]
  else []

/-- `migration_plan`. -/
def migrationPlan (table : ProjectTable) (event : PhaseEvolutionEvent) (projectId : String) :
    Option MigrationPlan := do
  let cur ← currentPhaseOf isalnumBeyond B table projectId
  return {
    projectId, event
    steps :=
      ["capability_check actor (require can_modify_sdlc_pipeline)",
       "diff lock vs target version " ++ event.pipelineVersionNew] ++
      renameSteps reprOf event cur ++ gateSteps reprOf event ++
      ["project_lock.migrate_locked_project(...) writes lock + audit"]
    requiresUserAction := !event.autoMigratable || event.eventType = .phaseRenamed ||
      event.eventType = .gateChanged
    blockers := blockersFor event cur }

/-! ## The migration -/

/-- `assert_rationale`; `none` is `CapabilityDenied`. -/
def assertRationale (rationale : String) : Option String :=
  if (strip rationale).length < 8 then none else some (strip rationale)

def requireCapability (actor capability : String) (pipeline : PipelineManifest) : Option Unit := do
  if ← checkCapability actor capability pipeline then return () else none

structure ManifestDiff where
  phasesAdded : List Atom
  phasesRemoved : List Atom
  phasesModified : List Atom
  tierRoutingChanged : Bool
  capabilitiesChanged : Bool

/-- `¬ b < a` where both are of one kind. -/
def idLe : Atom → Atom → Bool
  | .bytes bs, .bytes cs => bs ≤ cs
  | .time t _, .time u _ => t ≤ u
  | a, b => keyLe a b

/-- `sorted`; `none` is `TypeError`. -/
def sortedIds (ids : List Atom) : Option (List Atom) :=
  if comparable ids || (ids.all fun k => k matches .bytes _) ||
      (ids.all fun k => k matches .time _ _) then
    some (ids.insertionSort fun a b => idLe a b)
  else none

/-- `{p.get("id"): p for p in m.phases}`. -/
def phasesById (m : PipelineManifest) : Option Dict :=
  m.phases.foldlM (fun out p => do
    return Dict.set out (← (Dict.get p (.str "id")).asKey) (.dict p)) []

/-- `_diff_manifests`. -/
def diffManifests (old new : PipelineManifest) : Option ManifestDiff := do
  let o ← phasesById old
  let n ← phasesById new
  let both := (o.filter fun m => (Dict.get? n m.1).isSome).map Prod.fst
  return {
    phasesAdded := ← sortedIds ((n.filter fun m => !(Dict.get? o m.1).isSome).map Prod.fst)
    phasesRemoved := ← sortedIds ((o.filter fun m => !(Dict.get? n m.1).isSome).map Prod.fst)
    phasesModified :=
      ← sortedIds (both.filter fun pid => !(Dict.get o pid).eq (Dict.get n pid))
    tierRoutingChanged := !PyValue.eq (.dict old.tierRouting) (.dict new.tierRouting)
    capabilitiesChanged := !PyValue.eq (.dict old.capabilities) (.dict new.capabilities) }

structure MigrationResult where
  projectId : String
  fromVersion : String
  toVersion : String
  diff : ManifestDiff

/-- `migrate_locked_project`; `none` is an exception, which leaves the table as it is. -/
def migrateLockedProject (table : ProjectTable) (projectId : String)
    (newManifest : PipelineManifest) (actor rationale : String) :
    Option (MigrationResult × ProjectTable) := do
  let _ ← assertRationale rationale
  requireCapability actor "can_modify_sdlc_pipeline" newManifest
  let old ← getLockedPipeline isalnumBeyond B table projectId
  let diff ← diffManifests old newManifest
  let fromVersion ← computePipelineVersion reprOf copySet old
  let toVersion ← computePipelineVersion reprOf copySet newManifest
  let table' ← lockProjectToPipeline reprOf copySet isalnumBeyond B table projectId newManifest
  return ({ projectId, fromVersion, toVersion, diff }, table')

inductive ExecuteOutcome where
  | dryRun (projectId : String) (eventType : EvolutionType) (steps : List String)
  | migrated (result : MigrationResult)

/-- `execute_migration`, where `load_pipeline` returns `newManifest`. -/
def executeMigration (table : ProjectTable) (plan : MigrationPlan)
    (newManifest : PipelineManifest) (actor rationale : String) (dryRun : Bool) :
    Option (ExecuteOutcome × ProjectTable) :=
  if plan.blockers ≠ [] then none
  else if dryRun then
    some (.dryRun plan.projectId plan.event.eventType plan.steps, table)
  else do
    let (result, table') ←
      migrateLockedProject reprOf copySet isalnumBeyond B table plan.projectId newManifest actor
        rationale
    return (.migrated result, table')

end

end

/-! ## Where the project is afterwards -/

/-- The project's phase is the id of a phase of the manifest. -/
def ProjectRow.InPhaseOf (row : ProjectRow) (m : PipelineManifest) : Prop :=
  ∃ p ∈ m.phases, Dict.get p (.str "id") = .text row.currentPhase

theorem blockersFor_iff (event : PhaseEvolutionEvent) (cur : String) :
    blockersFor event cur ≠ [] ↔ event.eventType = .phaseRemoved ∧ cur = event.phaseId := by
  rw [blockersFor]
  split
  · rename_i h
    exact iff_of_true (List.cons_ne_nil _ _) h
  · rename_i h
    exact iff_of_false (fun hne => hne rfl) h

section
variable {reprOf : PyValue → String} {copySet : List Atom → List Atom}
variable {isalnumBeyond : Char → Bool} {B : Bare}

/-- A lock changes the version and the snapshot of rows, and nothing else. -/
theorem lockProjectToPipeline_rows {table table' : ProjectTable} {pid : String}
    {m : PipelineManifest}
    (h : lockProjectToPipeline reprOf copySet isalnumBeyond B table pid m = some table') :
    ∃ version document pid', table' = table.map fun row =>
      if row.isProject pid' then row.locked version document else row := by
  simp only [lockProjectToPipeline, Option.bind_eq_bind, Option.bind_eq_some_iff] at h
  obtain ⟨_, -, _, -, values, -, h⟩ := h
  split at h
  · obtain ⟨document, -, h⟩ := Option.bind_eq_some_iff.mp h
    obtain rfl := Option.some.inj h
    exact ⟨_, document, _, rfl⟩
  · cases h

theorem migrateLockedProject_lock {table table' : ProjectTable} {pid actor rationale : String}
    {m : PipelineManifest} {result : MigrationResult}
    (h : migrateLockedProject reprOf copySet isalnumBeyond B table pid m actor rationale =
      some (result, table')) :
    computePipelineVersion reprOf copySet m = some result.toVersion ∧
      lockProjectToPipeline reprOf copySet isalnumBeyond B table pid m = some table' := by
  simp only [migrateLockedProject, Option.bind_eq_bind, Option.bind_eq_some_iff] at h
  obtain ⟨_, -, _, -, _, -, _, -, _, -, toVersion, hversion, locked, hlock, h⟩ := h
  obtain ⟨rfl, rfl⟩ := Prod.mk.inj (Option.some.inj h)
  exact ⟨hversion, hlock⟩

theorem executeMigration_migrated {table table' : ProjectTable} {plan : MigrationPlan}
    {m : PipelineManifest} {actor rationale : String} {dryRun : Bool} {result : MigrationResult}
    (h : executeMigration reprOf copySet isalnumBeyond B table plan m actor rationale dryRun =
      some (.migrated result, table')) :
    plan.blockers = [] ∧
      migrateLockedProject reprOf copySet isalnumBeyond B table plan.projectId m actor rationale =
        some (result, table') := by
  rw [executeMigration] at h
  split at h
  · cases h
  · rename_i hblockers
    split at h
    · cases h
    · obtain ⟨out, hout, h⟩ := Option.bind_eq_some_iff.mp h
      obtain ⟨hresult, rfl⟩ := Prod.mk.inj (Option.some.inj h)
      obtain rfl := ExecuteOutcome.migrated.inj hresult
      exact ⟨not_not.mp hblockers, hout⟩

/-- The rows keep their phases: a migrated project is in a phase of the new manifest
exactly when it was in one before. -/
theorem executeMigration_inPhase_iff {table table' : ProjectTable} {plan : MigrationPlan}
    {newManifest : PipelineManifest} {actor rationale : String} {dryRun : Bool}
    {result : MigrationResult} {row : ProjectRow}
    (hrow : table.find? (·.isProject plan.projectId) = some row)
    (h : executeMigration reprOf copySet isalnumBeyond B table plan newManifest actor rationale
      dryRun = some (.migrated result, table')) :
    ∃ row', table'.find? (·.isProject plan.projectId) = some row' ∧
      row'.pipelineVersion = some result.toVersion ∧
      (row'.InPhaseOf newManifest ↔ row.InPhaseOf newManifest) := by
  obtain ⟨hversion, hlock⟩ := migrateLockedProject_lock (executeMigration_migrated h).2
  have hpid := row.plain_of_isProject (List.find?_some hrow)
  obtain ⟨w, hw, hresult⟩ := exists_dump hversion
  rw [lockProjectToPipeline_eq isalnumBeyond B table hpid hw, ← hresult] at hlock
  obtain ⟨document, -, rfl⟩ := Option.map_eq_some_iff.mp hlock
  exact ⟨_, find?_locked hrow result.toVersion document, rfl, Iff.rfl⟩

theorem currentPhaseOf_eq (table : ProjectTable) {pid : String} (hpid : Json.PlainText pid) :
    currentPhaseOf isalnumBeyond B table pid =
      some (strip (((table.find? (·.isProject pid)).map ProjectRow.currentPhase).getD "")) := by
  have hsql : ¬ setCommand <+: encodeUtf8 currentPhaseSql :=
    not_setCommand (c := 'S') (by decide +kernel) (by decide) (by decide)
  rw [currentPhaseOf, psqlBound_pid hsql (by decide +kernel) hpid]
  simp only [Option.bind_eq_bind, Option.bind_some, String.ofList_toList]
  rfl

end

/-! ## A phase that is renamed -/

def buildPipeline (pid : String) : PipelineManifest where
  version := 1
  orgBundle := "acme"
  phases := [
    [(.str "id", .text pid), (.str "label", .text "Build"), (.str "artifact", .text "Code")]]
  projectTypes := []
  tierRouting := []
  overrides := []
  capabilities := [(.str "grants", mapping [("can_modify_sdlc_pipeline", texts ["user:ada"])])]
  audit := []
  extra := []
  resolvedVersion := ""
  inheritanceChain := []

/-- A project that is locked to the pipeline, in its only phase. -/
def buildProject : ProjectRow where
  uuid := "7b0f2c1e-52a8-4c0c-9a44-0d5b7a1f6e21"
  id := "1"
  status := "active"
  currentPhase := "build"
  pipelineVersion := computePipelineVersion (fun _ => "") id (buildPipeline "build")
  snapshot := toJson (fun _ => "") (.dict (modelDump id (buildPipeline "build")))
  uuid_plain := oneProject.uuid_plain
  id_plain := oneProject.id_plain

theorem detect_renamed : ∃ event,
    detectEvolutionEvents (fun _ => "") id (buildPipeline "build") (buildPipeline "construct") =
      some [event] ∧ event.eventType = .phaseRenamed := by
  have heval : (detectEvolutionEvents (fun _ => "") id (buildPipeline "build")
      (buildPipeline "construct")).map (fun events => events.map (·.eventType)) =
      some [.phaseRenamed] := by
    decide +kernel
  obtain ⟨events, hevents, htypes⟩ := Option.map_eq_some_iff.mp heval
  obtain ⟨event, rfl, htype⟩ := List.map_eq_singleton_iff.mp htypes
  exact ⟨event, hevents, htype⟩

theorem migrate_renamed (event : PhaseEvolutionEvent) (htype : event.eventType = .phaseRenamed) :
    ∃ plan result table',
      migrationPlan (fun _ => "") (fun _ => false) untilBackslash [buildProject] event "1" =
        some plan ∧
      plan.projectId = "1" ∧
      executeMigration (fun _ => "") id (fun _ => false) untilBackslash [buildProject] plan
        (buildPipeline "construct") "user:ada" "the phase has a new name" false =
        some (.migrated result, table') := by
  have hpid : Json.PlainText "1" := by decide
  have hplan : ∃ plan, migrationPlan (fun _ => "") (fun _ => false) untilBackslash [buildProject]
      event "1" = some plan ∧ plan.projectId = "1" ∧ plan.blockers = [] := by
    rw [migrationPlan, currentPhaseOf_eq [buildProject] hpid]
    refine ⟨_, rfl, rfl, ?_⟩
    by_contra hne
    rw [((blockersFor_iff _ _).mp hne).1] at htype
    cases htype
  obtain ⟨plan, hplan, hid, hblockers⟩ := hplan
  have hstored : ((toJson (fun _ => "") (.dict (modelDump id (buildPipeline "construct")))).bind
      fun w => Json.castJsonb (Json.unslash (Json.encode w))).isSome = true := by
    decide +kernel
  obtain ⟨document, hstored⟩ := Option.isSome_iff_exists.mp hstored
  obtain ⟨w, hw, hcast⟩ := Option.bind_eq_some_iff.mp hstored
  have hread : ((manifestOfSnapshot buildProject).bind fun old =>
      (diffManifests old (buildPipeline "construct")).bind fun _ =>
        computePipelineVersion (fun _ => "") id old).isSome = true := by
    decide +kernel
  obtain ⟨fromVersion, hread⟩ := Option.isSome_iff_exists.mp hread
  obtain ⟨old, hold, hread⟩ := Option.bind_eq_some_iff.mp hread
  obtain ⟨diff, hdiff, hfrom⟩ := Option.bind_eq_some_iff.mp hread
  have hlocked : getLockedPipeline (fun _ => false) untilBackslash [buildProject] "1" = some old :=
    (getLockedPipeline_eq [buildProject] hpid).trans hold
  have hrationale : assertRationale "the phase has a new name" =
      some "the phase has a new name" := by
    decide +kernel
  have hgranted : requireCapability "user:ada" "can_modify_sdlc_pipeline"
      (buildPipeline "construct") = some () := by
    decide +kernel
  have hmigrated : ∃ result table', executeMigration (fun _ => "") id (fun _ => false)
      untilBackslash [buildProject] plan (buildPipeline "construct") "user:ada"
      "the phase has a new name" false = some (.migrated result, table') := by
    rw [executeMigration, if_neg (not_not.mpr hblockers), if_neg Bool.false_ne_true,
      migrateLockedProject, hrationale, hgranted, hid, hlocked,
      lockProjectToPipeline_eq _ _ _ hpid hw, hcast]
    simp only [Option.bind_eq_bind, Option.bind_some, hdiff, hfrom, computePipelineVersion_eq hw,
      Option.map_some]
    exact ⟨_, _, rfl⟩
  obtain ⟨result, table', hexecute⟩ := hmigrated
  exact ⟨plan, result, table', hplan, hid, hexecute⟩

theorem executeMigration_inPhase_renamed : ∃ plan result table' row',
    executeMigration (fun _ => "") id (fun _ => false) untilBackslash [buildProject] plan
      (buildPipeline "construct") "user:ada" "the phase has a new name" false =
      some (.migrated result, table') ∧
    table'.find? (·.isProject "1") = some row' ∧ row'.pipelineVersion = some result.toVersion ∧
    (row'.InPhaseOf (buildPipeline "construct") ↔
      buildProject.InPhaseOf (buildPipeline "construct")) := by
  obtain ⟨event, -, htype⟩ := detect_renamed
  obtain ⟨plan, result, table', -, hid, hexecute⟩ := migrate_renamed event htype
  have hrow : [buildProject].find? (·.isProject plan.projectId) = some buildProject := by
    rw [hid]
    rfl
  obtain ⟨row', hrow', hversion, hphase⟩ := executeMigration_inPhase_iff hrow hexecute
  exact ⟨plan, result, table', row', hexecute, hid ▸ hrow', hversion, hphase⟩

/-- The plan of the rename promises to rewrite the phase, the migration reports success, and
the project is left in a phase that the new manifest does not have. -/
theorem renamed_phase_is_kept : ∃ event plan result table',
    detectEvolutionEvents (fun _ => "") id (buildPipeline "build") (buildPipeline "construct") =
      some [event] ∧
    migrationPlan (fun _ => "") (fun _ => false) untilBackslash [buildProject] event "1" =
      some plan ∧
    executeMigration (fun _ => "") id (fun _ => false) untilBackslash [buildProject] plan
      (buildPipeline "construct") "user:ada" "the phase has a new name" false =
      some (.migrated result, table') ∧
    ∃ row' ∈ table', row'.isProject "1" = true ∧
      ¬ row'.InPhaseOf (buildPipeline "construct") := by
  obtain ⟨event, hevent, htype⟩ := detect_renamed
  obtain ⟨plan, result, table', hplan, -, hexecute⟩ := migrate_renamed event htype
  refine ⟨event, plan, result, table', hevent, hplan, hexecute, ?_⟩
  obtain ⟨version, document, pid', rfl⟩ :=
    lockProjectToPipeline_rows (migrateLockedProject_lock (executeMigration_migrated hexecute).2).2
  have hkept : ∀ row : ProjectRow, row.currentPhase = "build" →
      ¬ row.InPhaseOf (buildPipeline "construct") := by
    rintro row hrow ⟨p, hp, hid⟩
    obtain rfl := List.mem_singleton.mp hp
    rw [hrow] at hid
    have hname : PyValue.text "construct" = .text "build" := hid
    exact absurd (Atom.str.inj (PyValue.atom.inj hname)) (by decide)
  refine ⟨_, List.mem_map_of_mem (List.mem_singleton_self buildProject), ?_, hkept _ ?_⟩
  · split <;> rfl
  · split <;> rfl

end SpineFormal.Plan
