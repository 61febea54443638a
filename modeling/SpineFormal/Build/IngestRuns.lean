import SpineFormal.Base.Interleaving
import SpineFormal.Base.Run
import SpineFormal.Base.Sha256
import SpineFormal.Build.BuildArtifact
import SpineFormal.Json.Text
import SpineFormal.Migration.ImportState

/-!
# The build history under concurrent ingestion

`ingest_build_artifact` reads the metadata of a project, adds an entry to the history in
memory, and writes the whole key back with a statement of its own. Between the statements other
calls run. Audit rows are written on the way, and a failure of theirs is passed over.
-/

namespace SpineFormal.Build

open Json
open Migration (truthy)
set_option autoImplicit false

/-- A row of `spine_lifecycle.project`; in a jsonb object each key is there once. -/
structure ProjectRow where
  id : Nat
  projectUuid : String
  name : String
  metadata : Members

inductive IngestError where
  | noActiveProject
  | noBuildBrief
  | invalidArtifact
  | projectIdMismatch
  | unknownEngineeringGoalRef (unknown : List String)
  /-- A `TypeError` or `KeyError` over what the metadata holds. -/
  | malformedMetadata
  | psqlFailed
  deriving DecidableEq

structure IngestResult where
  projectId : Nat
  artifactUuid : String
  artifactHash : String
  codeChangesCount : Nat
  readyForVerify : Bool
  historyLength : Nat
  auditEventCount : Nat
  deriving DecidableEq

/-! ## What a call reads -/

/-- `metadata.get(key) or []`. -/
def getOrEmpty (ms : Members) (key : String) : Value :=
  match lookup ms key with
  | some v => if truthy v then v else .arr []
  | none => .arr []

/-- `eg["id"]`, put into a set. -/
def goalId : Value → Option Value
  | .obj goal =>
    match lookup goal "id" with
    | some (.arr _) | some (.obj _) | none => none
    | some v => some v
  | _ => none

def knownEgIds (brief : Members) : Option (List Value) :=
  match getOrEmpty brief "engineering_goals" with
  | .arr goals => goals.mapM goalId
  | _ => none

def isText (text : String) : Value → Bool
  | .str s => decide (s = text)
  | _ => false

/-- The checks before anything is written. `none` is an artifact that `model_validate` refuses. -/
def checkArtifact (proj : ProjectRow) (artifact : Option BuildArtifact) :
    Except IngestError BuildArtifact :=
  match lookup proj.metadata "build_brief" with
  | some (.obj (m :: brief)) =>
    match artifact with
    | none => .error .invalidArtifact
    | some validated =>
      if validated.projectId ∈ [proj.projectUuid, toString proj.id, proj.name] then
        match knownEgIds (m :: brief) with
        | none => .error .malformedMetadata
        | some known =>
          match validated.engineeringGoalRefs.filter fun r => !known.any (isText r) with
          | [] => .ok validated
          | unknown => .error (.unknownEngineeringGoalRef unknown)
      else .error .projectIdMismatch
  | _ => .error .noBuildBrief

/-- `list(metadata.get("build_history") or [])`. -/
def readHistory (metadata : Members) : Option (List Value) :=
  match getOrEmpty metadata "build_history" with
  | .arr entries => some entries
  | .str s => some (s.toList.map fun c => .str (String.singleton c))
  | .obj ms => some (ms.map fun m => .str m.1)
  | _ => none

/-! ## What a call writes -/

def artifactHash (a : BuildArtifact) : String := hexdigest (dumps a.dump)

def historyEntry (a : BuildArtifact) (ingestedAt : String) : Value :=
  .obj [("ingested_at", .str ingestedAt), ("artifact_uuid", .str a.artifactUuid),
    ("artifact_hash", .str (artifactHash a)), ("directive_id", .str a.directiveId),
    ("status", .str a.status.text), ("summary", a.computeDiffSummary.dump)]

/-- `metadata || patch`: the keys of the patch take its values. -/
def mergeMetadata (proj : ProjectRow) (patch : Members) : ProjectRow :=
  { proj with metadata := patch.foldl (fun ms m => dictSet ms m.1 m.2) proj.metadata }

def ingestPatch (a : BuildArtifact) (history : List Value) : Members :=
  [("build_artifact", a.dump), ("build_history", .arr history)]

/-! ## The statements of a call -/

/-- Where a call waits. `audits` counts the audit rows that it has written. -/
inductive Stage where
  | loading
  | auditing (validated : BuildArtifact)
  | refreshing (validated : BuildArtifact) (audits : Nat)
  | merging (validated : BuildArtifact) (read : List Value) (audits : Nat)
  | persisted (validated : BuildArtifact) (historyLength audits : Nat)
  | returned (validated : BuildArtifact) (result : IngestResult)
  | raised (e : IngestError)

structure Session where
  artifact : Option BuildArtifact
  ingestedAt : String
  stage : Stage

namespace Session

def goto (s : Session) (stage : Stage) : Session := { s with stage := stage }

/-- A call goes on with the statement it waits for; `ok` is whether that goes through. A `SELECT`
that fails, or that finds no active project, raises. -/
def run (proj : ProjectRow) (s : Session) (ok : Bool) : ProjectRow × Session :=
  match s.stage with
  | .loading =>
    if ok then
      match checkArtifact proj s.artifact with
      | .ok validated => (proj, s.goto (.auditing validated))
      | .error e => (proj, s.goto (.raised e))
    else (proj, s.goto (.raised .noActiveProject))
  | .auditing validated => (proj, s.goto (.refreshing validated ok.toNat))
  | .refreshing validated audits =>
    if ok then
      match readHistory proj.metadata with
      | some read => (proj, s.goto (.merging validated read audits))
      | none => (proj, s.goto (.raised .malformedMetadata))
    else (proj, s.goto (.raised .noActiveProject))
  | .merging validated read audits =>
    let history := read ++ [historyEntry validated s.ingestedAt]
    if ok then
      (mergeMetadata proj (ingestPatch validated history),
        s.goto (.persisted validated history.length audits))
    else (proj, s.goto (.raised .psqlFailed))
  | .persisted validated historyLength audits =>
    (proj, s.goto (.returned validated
      { projectId := proj.id, artifactUuid := validated.artifactUuid,
        artifactHash := artifactHash validated, codeChangesCount := validated.codeChanges.length,
        readyForVerify := true, historyLength := historyLength,
        auditEventCount := audits + ok.toNat }))
  | .returned _ _ | .raised _ => (proj, s)

def done (s : Session) : Bool :=
  match s.stage with
  | .returned _ _ | .raised _ => true
  | _ => false

/-- The entry of a call that has succeeded. -/
def succeeded (s : Session) : Option Value :=
  match s.stage with
  | .returned validated _ => some (historyEntry validated s.ingestedAt)
  | _ => none

/-- The entry of a call whose `UPDATE` has been carried out. -/
def recorded (s : Session) : Option Value :=
  match s.stage with
  | .persisted validated _ _ | .returned validated _ => some (historyEntry validated s.ingestedAt)
  | _ => none

theorem recorded_of_done {s : Session} (h : s.done = true) : s.recorded = s.succeeded := by
  unfold done at h
  unfold recorded succeeded
  cases hstage : s.stage <;> simp_all

end Session

inductive IngestEvent where
  | call (artifact : Option BuildArtifact) (ingestedAt : String)
  | answer (i : Nat) (ok : Bool)

abbrev Ingests := Pool ProjectRow Session

def ingestStep (p : Ingests) : IngestEvent → Option Ingests
  | .call artifact ingestedAt => some (p.add ⟨artifact, ingestedAt, .loading⟩)
  | .answer i ok => p.advance Session.run i ok

/-! ## What the history holds -/

def storedHistory (proj : ProjectRow) : List Value := (readHistory proj.metadata).getD []

/-- The entries from before and one for each call that has written; the order is left open. -/
def HistoryKept (before : List Value) (p : Ingests) : Prop :=
  (storedHistory p.store).Perm (before ++ p.sessions.filterMap Session.recorded)

/-- What a call read of the history before its `UPDATE` is still all of it. -/
def ReadStillCurrent (p : Ingests) (e : IngestEvent) : Prop :=
  ∀ i s validated read audits, e = .answer i true → p.sessions[i]? = some s →
    s.stage = .merging validated read audits → read.Perm (storedHistory p.store)

theorem lookup_dictSet_self (ms : Members) (key : String) (v : Value) :
    lookup (dictSet ms key v) key = some v := by
  induction ms with
  | nil => exact if_pos rfl
  | cons m ms ih =>
    rw [dictSet]
    split
    · exact if_pos rfl
    · rename_i hm
      rw [lookup, if_neg hm, ih]

/-- The history that an `UPDATE` leaves is the one in its patch. -/
theorem storedHistory_merge (proj : ProjectRow) (a : BuildArtifact) (read : List Value)
    (entry : Value) :
    storedHistory (mergeMetadata proj (ingestPatch a (read ++ [entry]))) = read ++ [entry] := by
  have hget : getOrEmpty (mergeMetadata proj (ingestPatch a (read ++ [entry]))).metadata
      "build_history" = .arr (read ++ [entry]) := by
    have hlookup : lookup (mergeMetadata proj (ingestPatch a (read ++ [entry]))).metadata
        "build_history" = some (.arr (read ++ [entry])) := lookup_dictSet_self _ _ _
    have htruthy : truthy (.arr (read ++ [entry])) = true := by simp [truthy]
    rw [getOrEmpty, hlookup]
    exact if_pos htruthy
  rw [storedHistory, readHistory, hget]
  rfl

/-- What one statement of a call does: the history and the recorded entries stay, or its
`UPDATE` adds the entry to what the call has read. -/
theorem run_cases (proj : ProjectRow) (s : Session) (ok : Bool) :
    ((∀ validated read audits, s.stage = .merging validated read audits → ok = false) ∧
      storedHistory (s.run proj ok).1 = storedHistory proj ∧
      (s.run proj ok).2.recorded = s.recorded) ∨
    ∃ validated read audits, s.stage = .merging validated read audits ∧ ok = true ∧
      storedHistory (s.run proj ok).1 = read ++ [historyEntry validated s.ingestedAt] ∧
      s.recorded = none ∧
      (s.run proj ok).2.recorded = some (historyEntry validated s.ingestedAt) := by
  obtain ⟨artifact, ingestedAt, stage⟩ := s
  cases stage with
  | loading =>
    refine Or.inl ⟨fun _ _ _ h => (by cases h), ?_⟩
    cases ok with
    | false => exact ⟨rfl, rfl⟩
    | true =>
      simp only [Session.run, if_true]
      split <;> exact ⟨rfl, rfl⟩
  | auditing validated => exact Or.inl ⟨fun _ _ _ h => (by cases h), rfl, rfl⟩
  | refreshing validated audits =>
    refine Or.inl ⟨fun _ _ _ h => (by cases h), ?_⟩
    cases ok with
    | false => exact ⟨rfl, rfl⟩
    | true =>
      simp only [Session.run, if_true]
      split <;> exact ⟨rfl, rfl⟩
  | merging validated read audits =>
    cases ok with
    | false => exact Or.inl ⟨fun _ _ _ _ => rfl, rfl, rfl⟩
    | true =>
      exact Or.inr ⟨validated, read, audits, rfl, rfl, storedHistory_merge proj validated read _,
        rfl, rfl⟩
  | persisted validated historyLength audits =>
    exact Or.inl ⟨fun _ _ _ h => (by cases h), rfl, rfl⟩
  | returned validated result => exact Or.inl ⟨fun _ _ _ h => (by cases h), rfl, rfl⟩
  | raised e => exact Or.inl ⟨fun _ _ _ h => (by cases h), rfl, rfl⟩

theorem historyKept_step_iff {before : List Value} {p q : Ingests} {e : IngestEvent}
    (hkept : HistoryKept before p) (h : ingestStep p e = some q) :
    HistoryKept before q ↔ ReadStillCurrent p e := by
  cases e with
  | call artifact ingestedAt =>
    obtain rfl : p.add ⟨artifact, ingestedAt, .loading⟩ = q := Option.some.inj h
    refine iff_of_true ?_ fun _ _ _ _ _ he => (by cases he)
    have hnone : [(⟨artifact, ingestedAt, .loading⟩ : Session)].filterMap Session.recorded = [] :=
      rfl
    rw [HistoryKept, Pool.add, List.filterMap_append, hnone, List.append_nil]
    exact hkept
  | answer i ok =>
    obtain ⟨pre, s, post, hget, hsessions, rfl⟩ := Pool.advance_split h
    rw [HistoryKept, hsessions, List.filterMap_append, List.filterMap_cons] at hkept
    rw [HistoryKept, List.filterMap_append, List.filterMap_cons]
    rcases run_cases p.store s ok with ⟨hother, hstored, hrecorded⟩ |
      ⟨validated, read, audits, hstage, rfl, hstored, hnone, hrecorded⟩
    · rw [hstored, hrecorded]
      refine iff_of_true hkept fun j s' validated read audits he hj hstage => ?_
      obtain ⟨rfl, rfl⟩ : i = j ∧ ok = true := by simpa using he
      obtain rfl : s = s' := Option.some.inj (hget.symm.trans hj)
      exact absurd (hother validated read audits hstage) (by decide)
    · rw [hnone] at hkept
      rw [hstored, hrecorded]
      -- The new entry cancels, and what was read is compared with what is there.
      have hmove : (before ++ (pre.filterMap Session.recorded ++
          historyEntry validated s.ingestedAt :: post.filterMap Session.recorded)).Perm
          (storedHistory p.store ++ [historyEntry validated s.ingestedAt]) := by
        rw [← List.append_assoc]
        refine List.perm_middle.trans ?_
        rw [List.append_assoc]
        exact (List.Perm.cons _ hkept.symm).trans (List.perm_append_singleton _ _).symm
      constructor
      · intro hafter j s' validated' read' audits' he hj hstage'
        obtain rfl : i = j := by simpa using he
        obtain rfl : s = s' := Option.some.inj (hget.symm.trans hj)
        obtain ⟨-, rfl, -⟩ := Stage.merging.inj (hstage.symm.trans hstage')
        exact (List.perm_append_right_iff _).mp (hafter.trans hmove)
      · intro hcurrent
        have hread := hcurrent i s validated read audits rfl hget hstage
        exact ((List.perm_append_right_iff _).mpr hread).trans hmove.symm

theorem filterMap_recorded_of_done {sessions : List Session}
    (hdone : ∀ s ∈ sessions, s.done = true) :
    sessions.filterMap Session.recorded = sessions.filterMap Session.succeeded :=
  List.filterMap_congr fun s hs => Session.recorded_of_done (hdone s hs)

/-- In the runs in which each `UPDATE` still finds the history that its call has read, and in no
others, every state holds one entry for each call that has written, and those from before. Once
all calls are done these are the calls that succeeded. -/
theorem build_history_kept_iff (row : ProjectRow) (events : List IngestEvent) (p : Ingests) :
    (Run (fun p e q => HistoryKept (storedHistory row) q ∧ ingestStep p e = some q) ⟨row, []⟩
        events p ↔
      Run (fun p e q => ReadStillCurrent p e ∧ ingestStep p e = some q) ⟨row, []⟩ events p) ∧
    (Run (fun p e q => ReadStillCurrent p e ∧ ingestStep p e = some q) ⟨row, []⟩ events p →
      (∀ s ∈ p.sessions, s.done = true) →
      (storedHistory p.store).Perm
        (storedHistory row ++ p.sessions.filterMap Session.succeeded)) := by
  have hstart : HistoryKept (storedHistory row) (⟨row, []⟩ : Ingests) := by
    simp [HistoryKept]
  have hguard : Run (fun p e q => HistoryKept (storedHistory row) q ∧ ingestStep p e = some q)
      ⟨row, []⟩ events p ↔
      Run (fun p e q => ReadStillCurrent p e ∧ ingestStep p e = some q) ⟨row, []⟩ events p :=
    Run.guard_iff hstart fun hs hstep => historyKept_step_iff hs hstep
  refine ⟨hguard, fun hrun hdone => ?_⟩
  have hkept : HistoryKept (storedHistory row) p :=
    (hguard.mpr hrun).invariant (I := fun _ p => HistoryKept (storedHistory row) p) hstart
      fun _ hstep => hstep.1
  rw [HistoryKept, filterMap_recorded_of_done hdone] at hkept
  exact hkept

/-- A project with a brief and no build yet. -/
def briefedProject : ProjectRow where
  id := 7
  projectUuid := "0f"
  name := "shop"
  metadata := [("build_brief", .obj [("brief_id", .str "b1")])]

def sealedArtifact (artifactUuid directiveId : String) : BuildArtifact where
  artifactUuid := artifactUuid
  directiveId := directiveId
  projectId := "0f"
  phase := "build_in_progress"
  role := "engineer"
  pipelineVersion := "v1"
  parentDirectiveId := none
  codeChanges := []
  testsAdded := []
  testsRun := []
  kgImpact := []
  cost := .obj []
  runtime := .obj []
  rationale := "done"
  status := .sealed
  auditorVerdict := none
  metadata := .obj []
  engineeringGoalRefs := []

/-- A call that runs alone adds its entry to the history. -/
theorem build_history_kept_iff_oneCall :
    ∃ p : Ingests, (storedHistory p.store).length = 1 ∧
      (storedHistory p.store).Perm
        (storedHistory briefedProject ++ p.sessions.filterMap Session.succeeded) := by
  obtain ⟨p, hrun, hdone, hlength⟩ : ∃ p : Ingests,
      Run (fun p e q => ReadStillCurrent p e ∧ ingestStep p e = some q) ⟨briefedProject, []⟩
        ([.call (some (sealedArtifact "a1" "d1")) "t1"] ++ [.answer 0 true] ++ [.answer 0 true] ++
          [.answer 0 true] ++ [.answer 0 true] ++ [.answer 0 true]) p ∧
        (∀ s ∈ p.sessions, s.done = true) ∧ (storedHistory p.store).length = 1 := by
    refine ⟨_, (((((Run.single ⟨?called, rfl⟩).snoc ⟨?loaded, rfl⟩).snoc ⟨?audited, rfl⟩).snoc
      ⟨?refreshed, rfl⟩).snoc ⟨?merged, rfl⟩).snoc ⟨?persisted, rfl⟩, ?_, rfl⟩
    case called =>
      intro i s validated read audits he
      cases he
    case merged =>
      intro i s validated read audits he hget hstage
      cases he
      cases hget
      cases hstage
      exact List.Perm.refl _
    case loaded | audited | refreshed | persisted =>
      intro i s validated read audits he hget hstage
      cases he
      cases hget
      cases hstage
    · decide
  exact ⟨p, hlength, (build_history_kept_iff briefedProject _ p).2 hrun hdone⟩

/-- Two calls read the empty history before either writes, and the second write drops the entry of
the first. Both have succeeded. -/
theorem two_ingests_one_entry :
    ¬ ∀ (row : ProjectRow) (events : List IngestEvent) (p : Ingests),
      Run (fun p e q => ingestStep p e = some q) ⟨row, []⟩ events p →
      (∀ s ∈ p.sessions, s.done = true) →
      (storedHistory p.store).Perm
        (storedHistory row ++ p.sessions.filterMap Session.succeeded) := by
  intro h
  obtain ⟨p, hrun, hdone, hstored, hsucceeded⟩ : ∃ p : Ingests,
      Run (fun p e q => ingestStep p e = some q) ⟨briefedProject, []⟩
        [.call (some (sealedArtifact "a1" "d1")) "t1",
          .call (some (sealedArtifact "a2" "d2")) "t2",
          .answer 0 true, .answer 0 true, .answer 0 true,
          .answer 1 true, .answer 1 true, .answer 1 true,
          .answer 0 true, .answer 1 true, .answer 0 true, .answer 1 true] p ∧
        (∀ s ∈ p.sessions, s.done = true) ∧ (storedHistory p.store).length = 1 ∧
        (p.sessions.filterMap Session.succeeded).length = 2 := by
    refine ⟨_, Run.of_foldlM (fun h => h) rfl, ?_, ?_, ?_⟩
    · decide
    · rfl
    · rfl
  have hlength := (h briefedProject _ p hrun hdone).length_eq
  rw [hstored, List.length_append, hsucceeded] at hlength
  omega

end SpineFormal.Build
