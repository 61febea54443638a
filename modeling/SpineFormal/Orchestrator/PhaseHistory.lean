import SpineFormal.Base.Run
import SpineFormal.Orchestrator.Transition

/-!
# The open row of the phase history

A project's current phase is kept twice: in its own row and in the row of
`phase_history` that has no exit yet. The transactions of `transition.sh` close
that row before they open the next. The Hub writes both tables directly when a
transition fails, and closes nothing.
-/

namespace SpineFormal.Orchestrator

set_option autoImplicit false

structure ProjectRow where
  id : Nat
  projectUuid : String
  currentPhase : Phase

inductive PhaseOutcome where
  | advanced
  | rolledBack
  deriving DecidableEq

/-- A row of `phase_history`; it has an outcome once it is closed. -/
structure HistoryRow where
  projectId : Nat
  phase : Phase
  exited : Bool := false
  outcome : Option PhaseOutcome := none

structure PhaseTables where
  projects : List ProjectRow
  history : List HistoryRow
  ids : (projects.map ProjectRow.id).Nodup
  uuids : (projects.map ProjectRow.projectUuid).Nodup

/-- What the Hub calls a project: digits are its id, other text its UUID. -/
inductive ProjectRef where
  | id (n : Nat)
  | uuid (text : String)

def ProjectRef.names (ref : ProjectRef) (p : ProjectRow) : Bool :=
  match ref with
  | .id n => decide (p.id = n)
  | .uuid text => decide (p.projectUuid = text)

def ProjectRow.setPhase (id : Nat) (phase : Phase) (p : ProjectRow) : ProjectRow :=
  if p.id = id then { p with currentPhase := phase } else p

theorem ProjectRow.setPhase_id (id : Nat) (phase : Phase) (p : ProjectRow) :
    (p.setPhase id phase).id = p.id := by
  unfold ProjectRow.setPhase
  split_ifs <;> rfl

theorem ProjectRow.setPhase_projectUuid (id : Nat) (phase : Phase) (p : ProjectRow) :
    (p.setPhase id phase).projectUuid = p.projectUuid := by
  unfold ProjectRow.setPhase
  split_ifs <;> rfl

def HistoryRow.isOpen (id : Nat) (r : HistoryRow) : Bool := decide (r.projectId = id) && !r.exited

/-- The `UPDATE` of a transition: the open rows of the project are closed. -/
def HistoryRow.close (id : Nat) (outcome : PhaseOutcome) (r : HistoryRow) : HistoryRow :=
  if r.isOpen id then { r with exited := true, outcome := some outcome } else r

namespace PhaseTables
variable (t : PhaseTables)

def openRows (id : Nat) : List HistoryRow := t.history.filter (HistoryRow.isOpen id)

/-- The project's row gets the phase, and the history what it is given. -/
def enter (id : Nat) (phase : Phase) (history : List HistoryRow) : PhaseTables where
  projects := t.projects.map (ProjectRow.setPhase id phase)
  history := history ++ [⟨id, phase, false, none⟩]
  ids := by
    rw [List.map_map]
    exact (List.map_congr_left fun p _ => ProjectRow.setPhase_id id phase p) ▸ t.ids
  uuids := by
    rw [List.map_map]
    exact (List.map_congr_left fun p _ => ProjectRow.setPhase_projectUuid id phase p) ▸ t.uuids

/-- `UPDATE project ... RETURNING id`, then a new history row; `ok` is whether the transaction goes
through. -/
def directWrite (ref : ProjectRef) (target : Phase) (ok : Bool) : PhaseTables × Bool :=
  match t.projects.find? ref.names with
  | none => (t, false)
  | some p => if ok then (t.enter p.id target t.history, true) else (t, false)

/-- `_fallback_advance` of the pipeline bridge. -/
def fallbackAdvance (pool : Bool) (ref : ProjectRef) (target : Phase) (ok : Bool) :
    PhaseTables × Bool :=
  if pool then t.directWrite ref target ok else (t, false)

/-- `_advance_phase` of the post-ack handlers, which runs the same statements. -/
def advancePhase (pool : Bool) (ref : ProjectRef) (target : Phase) (ok : Bool) : PhaseTables :=
  if pool then (t.directWrite ref target ok).1 else t

/-- The transaction of `transition.sh`. -/
def closeAndOpen (id : Nat) (target : Phase) (outcome : PhaseOutcome) : PhaseTables :=
  t.enter id target (t.history.map (HistoryRow.close id outcome))

/-- The project as `transition_execute` and `transition_rollback` read it. -/
def lifecycle (id : Nat) : Lifecycle :=
  { currentPhase := (t.projects.find? fun p => decide (p.id = id)).map ProjectRow.currentPhase }

def execute (yq : Bool) (id : Nat) (target : Phase) (actor : String) (a : TransitionAnswers) :
    PhaseTables :=
  match transitionExecute yq (t.lifecycle id) target actor a with
  | .error _ => t
  | .ok _ => t.closeAndOpen id target .advanced

def rollback (yq : Bool) (id : Nat) (target : Phase) (actor rationale : String)
    (a : TransitionAnswers) : PhaseTables :=
  match transitionRollback yq (t.lifecycle id) target actor rationale a with
  | .error _ => t
  | .ok _ => t.closeAndOpen id target .rolledBack

end PhaseTables

inductive PhaseEvent where
  | fallbackAdvance (pool : Bool) (ref : ProjectRef) (target : Phase) (ok : Bool)
  | advancePhase (pool : Bool) (ref : ProjectRef) (target : Phase) (ok : Bool)
  | execute (id : Nat) (target : Phase) (actor : String) (answers : TransitionAnswers)
  | rollback (id : Nat) (target : Phase) (actor rationale : String) (answers : TransitionAnswers)

def PhaseTables.step (yq : Bool) (t : PhaseTables) : PhaseEvent → PhaseTables
  | .fallbackAdvance pool ref target ok => (t.fallbackAdvance pool ref target ok).1
  | .advancePhase pool ref target ok => t.advancePhase pool ref target ok
  | .execute id target actor a => t.execute yq id target actor a
  | .rollback id target actor rationale a => t.rollback yq id target actor rationale a

/-! ## At most one open row, with the current phase -/

/-- Each project has at most one open row, and it is that of the current phase. -/
def PhaseTables.Settled (t : PhaseTables) : Prop :=
  ∀ p ∈ t.projects, (t.openRows p.id).length ≤ 1 ∧
    ∀ r ∈ t.openRows p.id, r.phase = p.currentPhase

/-- A direct write that takes effect finds the project without an open row. -/
def FindsClosed (t : PhaseTables) : PhaseEvent → Prop
  | .fallbackAdvance pool ref _ ok | .advancePhase pool ref _ ok =>
    pool = true → ok = true → ∀ p ∈ t.projects.find? ref.names, t.openRows p.id = []
  | _ => True

namespace PhaseTables
variable {t : PhaseTables}

/-- A closed row is open for no project, and every other row is as it was. -/
theorem filter_close (id q : Nat) (outcome : PhaseOutcome) (history : List HistoryRow) :
    (history.map (HistoryRow.close id outcome)).filter (HistoryRow.isOpen q) =
      if q = id then [] else history.filter (HistoryRow.isOpen q) := by
  induction history with
  | nil => simp
  | cons r history ih =>
    rw [List.map_cons, List.filter_cons, ih, List.filter_cons]
    unfold HistoryRow.close
    by_cases hopen : r.isOpen id = true
    · have hid : r.projectId = id := of_decide_eq_true (Bool.and_eq_true_iff.mp hopen).1
      rw [if_pos hopen]
      by_cases hq : q = id
      · simp [HistoryRow.isOpen, hq]
      · simp [HistoryRow.isOpen, hq, hid, Ne.symm hq]
    · rw [if_neg hopen]
      by_cases hq : q = id
      · subst hq
        simp [hopen]
      · simp [hq]

theorem openRows_enter (id q : Nat) (phase : Phase) (history : List HistoryRow) :
    (t.enter id phase history).openRows q = history.filter (HistoryRow.isOpen q) ++
      if q = id then [⟨id, phase, false, none⟩] else [] := by
  rw [openRows, enter, List.filter_append]
  by_cases hq : q = id
  · simp [HistoryRow.isOpen, hq]
  · simp [HistoryRow.isOpen, hq, Ne.symm hq]

/-- Entering a phase keeps the tables settled just when it leaves no open row of the project before
the new one. -/
theorem settled_enter_iff (hs : t.Settled) {p : ProjectRow} (hp : p ∈ t.projects) {target : Phase}
    {history : List HistoryRow}
    (hothers : ∀ q, q ≠ p.id → history.filter (HistoryRow.isOpen q) = t.openRows q) :
    (t.enter p.id target history).Settled ↔ history.filter (HistoryRow.isOpen p.id) = [] := by
  constructor
  · intro h
    have hmem : p.setPhase p.id target ∈ (t.enter p.id target history).projects :=
      List.mem_map_of_mem hp
    have hlength := (h _ hmem).1
    rw [ProjectRow.setPhase_id, openRows_enter, if_pos rfl, List.length_append] at hlength
    exact List.length_eq_zero_iff.mp (by simpa using hlength)
  · intro hclosed p' hp'
    obtain ⟨q, hq, rfl⟩ := List.mem_map.mp hp'
    rw [ProjectRow.setPhase_id, openRows_enter]
    by_cases hid : q.id = p.id
    · rw [if_pos hid, hid, hclosed]
      refine ⟨Nat.le_refl 1, fun r hr => ?_⟩
      rw [List.mem_singleton.mp hr, ProjectRow.setPhase, if_pos hid]
    · rw [if_neg hid, List.append_nil, hothers q.id hid, ProjectRow.setPhase, if_neg hid]
      exact hs q hq

theorem settled_directWrite_iff (hs : t.Settled) (ref : ProjectRef) (target : Phase) (ok : Bool) :
    (t.directWrite ref target ok).1.Settled ↔
      (ok = true → ∀ p ∈ t.projects.find? ref.names, t.openRows p.id = []) := by
  unfold directWrite
  cases hfind : t.projects.find? ref.names with
  | none => simp [hs]
  | some p =>
    have hp : p ∈ t.projects := List.mem_of_find?_eq_some hfind
    cases ok with
    | false => simp [hs]
    | true =>
      have hiff : (t.enter p.id target t.history).Settled ↔ t.openRows p.id = [] :=
        settled_enter_iff hs hp fun _ _ => rfl
      constructor
      · rintro h - _ ⟨⟩
        exact hiff.mp h
      · intro h
        exact hiff.mpr (h rfl p rfl)

/-- The transaction of `transition.sh` settles the project that it moves. -/
theorem Settled.closeAndOpen (hs : t.Settled) {p : ProjectRow} (hp : p ∈ t.projects)
    (target : Phase) (outcome : PhaseOutcome) : (t.closeAndOpen p.id target outcome).Settled := by
  refine (settled_enter_iff hs hp fun q hq => ?_).mpr ?_
  · rw [filter_close, if_neg hq]
    rfl
  · rw [filter_close, if_pos rfl]

/-- A phase can be read of a project that has a row. -/
theorem exists_of_lifecycle {id : Nat} {phase : Phase}
    (h : (t.lifecycle id).currentPhase = some phase) : ∃ p ∈ t.projects, p.id = id := by
  obtain ⟨p, hfind, -⟩ := Option.map_eq_some_iff.mp h
  exact ⟨p, List.mem_of_find?_eq_some hfind, by simpa using List.find?_some hfind⟩

theorem Settled.execute (hs : t.Settled) (yq : Bool) (id : Nat) (target : Phase) (actor : String)
    (a : TransitionAnswers) : (t.execute yq id target actor a).Settled := by
  unfold PhaseTables.execute
  split
  · exact hs
  · rename_i st hexecute
    obtain ⟨current, hvalid, -⟩ := transitionExecute_eq_ok_iff.mp hexecute
    obtain ⟨p, hp, rfl⟩ := exists_of_lifecycle (transitionValidate_eq_ok_iff.mp hvalid).2.1
    exact hs.closeAndOpen hp target .advanced

theorem Settled.rollback (hs : t.Settled) (yq : Bool) (id : Nat) (target : Phase)
    (actor rationale : String) (a : TransitionAnswers) :
    (t.rollback yq id target actor rationale a).Settled := by
  unfold PhaseTables.rollback
  split
  · exact hs
  · rename_i st hrollback
    obtain ⟨current, hcurrent, -⟩ := transitionRollback_eq_ok hrollback
    obtain ⟨p, hp, rfl⟩ := exists_of_lifecycle hcurrent
    exact hs.closeAndOpen hp target .rolledBack

/-- What one phase change does to settled tables. -/
theorem settled_step_iff (hs : t.Settled) (yq : Bool) (e : PhaseEvent) :
    (t.step yq e).Settled ↔ FindsClosed t e := by
  cases e with
  | fallbackAdvance pool ref target ok =>
    cases pool with
    | false => simpa [step, fallbackAdvance, FindsClosed] using hs
    | true =>
      simpa [step, fallbackAdvance, FindsClosed] using settled_directWrite_iff hs ref target ok
  | advancePhase pool ref target ok =>
    cases pool with
    | false => simpa [step, advancePhase, FindsClosed] using hs
    | true => simpa [step, advancePhase, FindsClosed] using settled_directWrite_iff hs ref target ok
  | execute id target actor a => exact iff_of_true (hs.execute yq id target actor a) trivial
  | rollback id target actor rationale a =>
    exact iff_of_true (hs.rollback yq id target actor rationale a) trivial

end PhaseTables

/-- Every state that the phase changes lead through is settled just when each direct write finds
its project without an open row. -/
theorem phase_history_settled_iff {yq : Bool} {init t : PhaseTables} (hinit : init.Settled)
    {es : List PhaseEvent} :
    Run (fun t e u => u.Settled ∧ u = t.step yq e) init es t ↔
      Run (fun t e u => FindsClosed t e ∧ u = t.step yq e) init es t := by
  refine Run.guard_iff hinit fun {s e u} hs hstep => ?_
  rw [hstep]
  exact PhaseTables.settled_step_iff hs yq e

/-- A new project, in the phase and with the history row that its creation makes. -/
def newProject : PhaseTables :=
  ⟨[⟨7, "0f", .intake⟩], [⟨7, .intake, false, none⟩], by decide, by decide⟩

theorem newProject_settled : newProject.Settled := by
  simp [PhaseTables.Settled, PhaseTables.openRows, newProject, HistoryRow.isOpen]

/-- A transition of `transition.sh`, and every state settled. -/
theorem phase_history_settled_iff_transition :
    Run (fun t e u => u.Settled ∧ u = t.step false e) newProject
      [.execute 7 .planInProgress "pm" {}]
      (newProject.step false (.execute 7 .planInProgress "pm" {})) := by
  refine (phase_history_settled_iff newProject_settled).mpr ?_
  exact .single ⟨trivial, rfl⟩

/-- The Hub writes the next phase directly, and the row of the first stays open. -/
theorem phase_history_two_open :
    ¬ ∀ (yq : Bool) (init t : PhaseTables) (es : List PhaseEvent), init.Settled →
      Run (fun t e u => u = t.step yq e) init es t → t.Settled := by
  intro h
  have hsettled := h false newProject _ [.fallbackAdvance true (.id 7) .planInProgress true]
    newProject_settled (.single rfl)
  have hclosed := (PhaseTables.settled_step_iff newProject_settled false _).mp hsettled
  exact absurd (hclosed rfl rfl ⟨7, "0f", .intake⟩ rfl) (by decide)

end SpineFormal.Orchestrator
