import SpineFormal.Base.Interleaving
import SpineFormal.Base.Run
import SpineFormal.Orchestrator.Transition
import Mathlib.Data.List.Chain

/-!
# The log of transitions under concurrent calls

`transition_execute` reads the phase to validate the move, asks for the gate, reads
the phase once more for the log and only then writes; `transition_rollback` reads
and writes. The transaction asks for nothing, so calls on one project that overlap
write what they read.
-/

namespace SpineFormal.Orchestrator

set_option autoImplicit false

/-- A row of the log, with the `rollback` mark of its metadata. -/
structure LoggedMove where
  row : TransitionRow
  rollback : Bool

structure MoveStore where
  currentPhase : Option Phase
  log : List LoggedMove := []

def MoveStore.moveTo (st : MoveStore) (source target : Phase) (actor : String) (rollback : Bool) :
    MoveStore :=
  ⟨some target, st.log ++ [⟨⟨source, target, actor⟩, rollback⟩]⟩

/-- Where a call stands, with the phases that it has read. -/
inductive MoveStage where
  | validating
  | gating (validated : Phase)
  | rereading (validated : Phase)
  | committing (source : Phase)
  | finished (code : Nat)
  deriving DecidableEq

structure MoveCall where
  rollback : Bool
  target : Phase
  actor : String
  rationale : String
  /-- The caller checks the exit code, so that a failing command does not end the script. -/
  guarded : Bool
  stage : MoveStage := .validating
  deriving DecidableEq

/-- `transition_validate`, or the checks of `transition_rollback`. -/
def MoveCall.validate (yq : Bool) (st : MoveStore) (c : MoveCall) (a : TransitionAnswers) :
    MoveStage :=
  if c.rollback then
    if c.rationale = "" then .finished 7
    else
      match (if a.readable then st.currentPhase else none) with
      | none => .finished 2
      | some current =>
        if c.target ∈ allowedRollback yq current then .committing current else .finished 4
  else
    match transitionValidate yq { currentPhase := st.currentPhase } c.target a with
    | .error code => .finished code
    | .ok current => .gating current

/-- The second read of `transition_execute`: when it fails the variable stays empty, unless the
failing assignment ends the script. -/
def MoveCall.reread (st : MoveStore) (c : MoveCall) (a : TransitionAnswers) : MoveStage :=
  match (if a.rereadable then st.currentPhase else none) with
  | some current => .committing current
  | none => if c.guarded then .committing (.other "") else .finished 1

/-- The next statement of a call, with the shell around it. -/
def MoveCall.run (yq : Bool) (st : MoveStore) (c : MoveCall) (a : TransitionAnswers) :
    MoveStore × MoveCall :=
  match c.stage with
  | .validating => (st, { c with stage := c.validate yq st a })
  | .gating validated =>
    match transitionGateCheck yq c.target a with
    | .error code => (st, { c with stage := .finished code })
    | .ok _ => (st, { c with stage := .rereading validated })
  | .rereading _ => (st, { c with stage := c.reread st a })
  | .committing source =>
    if a.commits then
      (st.moveTo source c.target c.actor c.rollback, { c with stage := .finished 0 })
    else (st, { c with stage := .finished 6 })
  | .finished _ => (st, c)

abbrev MoveDesk := Pool MoveStore MoveCall

inductive MoveEvent where
  | execute (target : Phase) (actor : String) (guarded : Bool)
  | rollback (target : Phase) (actor rationale : String) (guarded : Bool)
  | advance (call : Nat) (answers : TransitionAnswers)

def MoveDesk.step (yq : Bool) (d : MoveDesk) : MoveEvent → Option MoveDesk
  | .execute target actor guarded => some (d.add ⟨false, target, actor, "", guarded, .validating⟩)
  | .rollback target actor rationale guarded =>
    some (d.add ⟨true, target, actor, rationale, guarded, .validating⟩)
  | .advance i a => d.advance (MoveCall.run yq) i a

/-- No call yet. -/
def MoveDesk.start (phase : Option Phase) : MoveDesk := ⟨⟨phase, []⟩, []⟩

/-! ## A call that is alone -/

/-- The project as the log describes it. -/
def MoveStore.lifecycle (st : MoveStore) : Lifecycle :=
  { currentPhase := st.currentPhase, transitions := st.log.map LoggedMove.row }

/-- Statement after statement, up to the write. -/
def MoveCall.finish (yq : Bool) (st : MoveStore) (c : MoveCall) (a : TransitionAnswers) :
    MoveStore × MoveCall :=
  let p := c.run yq st a
  let q := p.2.run yq p.1 a
  let r := q.2.run yq q.1 a
  r.2.run yq r.1 a

/-- Without others, a guarded `transition_execute` is `transitionExecute`. -/
theorem finish_execute (yq : Bool) (st : MoveStore) (target : Phase) (actor : String)
    (a : TransitionAnswers) :
    let p := MoveCall.finish yq st ⟨false, target, actor, "", true, .validating⟩ a
    match transitionExecute yq st.lifecycle target actor a with
    | .ok t => p.1.lifecycle = t ∧ p.2.stage = .finished 0
    | .error code => p.1 = st ∧ p.2.stage = .finished code := by
  have hsame : transitionValidate yq st.lifecycle target a =
      transitionValidate yq { currentPhase := st.currentPhase } target a := rfl
  cases hvalid : transitionValidate yq { currentPhase := st.currentPhase } target a with
  | error code =>
    simp [MoveCall.finish, MoveCall.run, MoveCall.validate, transitionExecute, hsame, hvalid, bind,
      Except.bind]
  | ok current =>
    cases hgate : transitionGateCheck yq target a with
    | error code =>
      simp [MoveCall.finish, MoveCall.run, MoveCall.validate, transitionExecute, hsame, hvalid,
        hgate, bind, Except.bind]
    | ok _ =>
      have hcurrent : st.currentPhase = some current :=
        (transitionValidate_eq_ok_iff.mp hvalid).2.1
      have hreread : MoveCall.reread st ⟨false, target, actor, "", true, .rereading current⟩ a =
          .committing (if a.rereadable then current else .other "") := by
        cases hreadable : a.rereadable <;> simp [MoveCall.reread, hreadable, hcurrent]
      have hexecute : transitionExecute yq st.lifecycle target actor a =
          if a.commits then .ok (st.lifecycle.moveTo (if a.rereadable then current else .other "")
            target actor) else .error 6 := by
        simp only [transitionExecute, hsame, hvalid, hgate, bind, Except.bind]
      rw [hexecute]
      cases hcommits : a.commits <;>
        simp [MoveCall.finish, MoveCall.run, MoveCall.validate, hvalid, hgate, hreread, hcommits,
          MoveStore.moveTo, MoveStore.lifecycle, Lifecycle.moveTo]

/-- Nor does a `transition_rollback` do anything but `transitionRollback`. -/
theorem finish_rollback (yq : Bool) (st : MoveStore) (target : Phase) (actor rationale : String)
    (guarded : Bool) (a : TransitionAnswers) :
    let p := MoveCall.finish yq st ⟨true, target, actor, rationale, guarded, .validating⟩ a
    match transitionRollback yq st.lifecycle target actor rationale a with
    | .ok t => p.1.lifecycle = t ∧ p.2.stage = .finished 0
    | .error code => p.1 = st ∧ p.2.stage = .finished code := by
  have hsame : st.lifecycle.currentPhase = st.currentPhase := rfl
  by_cases hrationale : rationale = ""
  · simp [MoveCall.finish, MoveCall.run, MoveCall.validate, transitionRollback, hrationale]
  · cases hread : (if a.readable then st.currentPhase else none) with
    | none =>
      simp [MoveCall.finish, MoveCall.run, MoveCall.validate, transitionRollback, hrationale, hsame,
        hread]
    | some current =>
      by_cases hback : target ∈ allowedRollback yq current
      · cases hcommits : a.commits <;>
          simp [MoveCall.finish, MoveCall.run, MoveCall.validate, transitionRollback, hrationale,
            hread, hback, hcommits, MoveStore.moveTo, MoveStore.lifecycle, Lifecycle.moveTo]
      · simp [MoveCall.finish, MoveCall.run, MoveCall.validate, transitionRollback, hrationale,
          hsame, hread, hback]

/-! ## The log as a path -/

/-- Each row starts where the row before it ended, and a forward row is an edge of the manifest. -/
structure MovePath (yq : Bool) (log : List LoggedMove) : Prop where
  linked : log.IsChain fun a b => b.row.fromPhase = a.row.toPhase
  edges : ∀ r ∈ log, r.rollback = false → r.row.toPhase ∈ allowedNext yq r.row.fromPhase

/-- A write comes while the project is still in the phase that the call read, and moves along an
edge from there. -/
def UpToDate (yq : Bool) (d : MoveDesk) : MoveEvent → Prop
  | .advance i a => ∀ c ∈ d.sessions[i]?,
    match c.stage with
    | .committing source => a.commits = true →
        (∀ r ∈ d.store.log.getLast?, source = r.row.toPhase) ∧
          (c.rollback = false → c.target ∈ allowedNext yq source)
    | _ => True
  | _ => True

instance (yq : Bool) (d : MoveDesk) (e : MoveEvent) : Decidable (UpToDate yq d e) := by
  unfold UpToDate
  split
  · refine @Option.decidableForallMem _ _ (fun c => ?_) _
    split <;> infer_instance
  · infer_instance

theorem movePath_snoc_iff {yq : Bool} {log : List LoggedMove} {r : LoggedMove} :
    MovePath yq (log ++ [r]) ↔ MovePath yq log ∧
      (∀ last ∈ log.getLast?, r.row.fromPhase = last.row.toPhase) ∧
        (r.rollback = false → r.row.toPhase ∈ allowedNext yq r.row.fromPhase) := by
  constructor
  · rintro ⟨hlinked, hedges⟩
    obtain ⟨hlog, -, hlast⟩ := List.isChain_append.mp hlinked
    refine ⟨⟨hlog, fun x hx => hedges x (List.mem_append_left _ hx)⟩, ?_, ?_⟩
    · exact fun last hl => hlast last hl r rfl
    · exact hedges r (List.mem_append_right _ List.mem_cons_self)
  · rintro ⟨⟨hlog, hedges⟩, hlast, hedge⟩
    refine ⟨List.isChain_append.mpr ⟨hlog, List.isChain_singleton r, ?_⟩, ?_⟩
    · rintro last hl x ⟨⟩
      exact hlast last hl
    · intro x hx
      rcases List.mem_append.mp hx with hx | hx
      · exact hedges x hx
      · rw [List.mem_singleton.mp hx]
        exact hedge

theorem MoveCall.run_log (yq : Bool) (st : MoveStore) (c : MoveCall) (a : TransitionAnswers) :
    (∃ source, c.stage = .committing source ∧ a.commits = true ∧
      (c.run yq st a).1.log = st.log ++ [⟨⟨source, c.target, c.actor⟩, c.rollback⟩]) ∨
    ((∀ source, c.stage = .committing source → a.commits = false) ∧
      (c.run yq st a).1.log = st.log) := by
  unfold MoveCall.run
  cases hstage : c.stage with
  | committing source =>
    cases hcommits : a.commits with
    | true => exact .inl ⟨source, rfl, rfl, rfl⟩
    | false => exact .inr ⟨fun _ _ => rfl, rfl⟩
  | validating => exact .inr ⟨by simp, rfl⟩
  | gating validated =>
    refine .inr ⟨by simp, ?_⟩
    dsimp only
    split <;> rfl
  | rereading validated => exact .inr ⟨by simp, rfl⟩
  | finished code => exact .inr ⟨by simp, rfl⟩

/-- A step keeps the log a path just when its write, if it makes one, is up to date. -/
theorem movePath_step {yq : Bool} {d d' : MoveDesk} {e : MoveEvent}
    (hstep : d.step yq e = some d') :
    MovePath yq d'.store.log ↔ MovePath yq d.store.log ∧ UpToDate yq d e := by
  cases e with
  | execute target actor guarded =>
    obtain rfl := Option.some.inj hstep
    exact (and_iff_left trivial).symm
  | rollback target actor rationale guarded =>
    obtain rfl := Option.some.inj hstep
    exact (and_iff_left trivial).symm
  | advance i a =>
    obtain ⟨c, hc, rfl⟩ := Pool.advance_eq_some hstep
    have hdue : UpToDate yq d (.advance i a) ↔ ∀ source, c.stage = .committing source →
        a.commits = true → (∀ r ∈ d.store.log.getLast?, source = r.row.toPhase) ∧
          (c.rollback = false → c.target ∈ allowedNext yq source) := by
      simp only [UpToDate, hc, Option.mem_some_iff, forall_eq']
      cases c.stage <;> simp
    rw [hdue]
    rcases c.run_log yq d.store a with ⟨source, hstage, hcommits, hlog⟩ | ⟨hidle, hlog⟩
    · rw [hlog, movePath_snoc_iff]
      refine and_congr_right fun _ => ⟨?_, fun h => h source hstage hcommits⟩
      intro h source' hstage' _
      obtain rfl := MoveStage.committing.inj (hstage.symm.trans hstage')
      exact h
    · rw [hlog]
      refine (and_iff_left fun source hstage hcommits => ?_).symm
      exact absurd (hcommits.symm.trans (hidle source hstage)) (by decide)

/-- A build is completed and taken back. -/
def completedAndBack : List MoveEvent :=
  [.execute .buildComplete "build" false, .advance 0 {}, .advance 0 {}, .advance 0 {},
    .advance 0 {}, .rollback .buildInProgress "pm" "tests fail" true, .advance 1 {}, .advance 1 {}]

end SpineFormal.Orchestrator
