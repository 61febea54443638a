import SpineFormal.Base.Interleaving
import SpineFormal.Base.Run

/-!
# The in-flight flag of a recovery dispatch

A recovery request reads the project, looks at the flag in its metadata, writes a
flag of its own and starts a worker, which clears the flag when it is done. The
reads and the writes are awaited, and between them other requests, cancels and
status polls run. A request and the worker that it starts are one session here;
the status that a pulse reports is a session like any other.
-/

namespace SpineFormal.Hub.Recovery

set_option autoImplicit false

inductive RecoveryAction where
  | retryPlanner
  | retryArchitect
  | retryConductor
  | retryEngineer
  | retryEngineerRemediate
  | retryCodeReview
  | retryDevops
  | retryQa
  | retryOperate
  | retryFeature
  | resetFixLoop
  | resume
  deriving DecidableEq

/-- The kinds of decision cards, and of the dispatches that acking them starts. -/
inductive CardKind where
  | intakeBriefing
  | prdApproval
  | roadmapApproval
  | trdApproval
  | sprintPlanApproval
  | codeApproval
  | codeReviewPass
  | codeReviewBlocked
  | securityReviewBlocked
  | devopsApproval
  | qaApproval
  | qaExecution
  | auditorApproval
  | releaseGateApproval
  | localDeployPrompt
  | hostDeployPrompt
  | hostDeployInstructions
  | deployStatus
  | operateKickoff
  | projectComplete
  | featureRequest
  | orchestratorGap
  | roleFailure
  | masterDailyBriefing
  | other (kind : String)
  deriving DecidableEq

/-- The `kind` of `_dispatch_params`, which raises for the last two actions. -/
def dispatchKind : RecoveryAction → Option CardKind
  | .retryPlanner => some .prdApproval
  | .retryArchitect => some .roadmapApproval
  | .retryConductor => some .trdApproval
  | .retryEngineer => some .sprintPlanApproval
  | .retryEngineerRemediate => some .codeReviewBlocked
  | .retryCodeReview => some .codeApproval
  | .retryDevops => some .codeReviewPass
  | .retryQa => some .devopsApproval
  | .retryOperate => some .operateKickoff
  | .retryFeature => some .featureRequest
  | .resetFixLoop => none
  | .resume => none

/-- `recovery_dispatch_in_flight`; the time is missing when it cannot be read. -/
structure InFlight where
  action : RecoveryAction
  dispatchKind : CardKind
  actor : String
  startedAt : Option Nat

/-- `_INFLIGHT_STALE_SECONDS`, in microseconds. -/
def inflightStale : Nat := 5 * 60 * 1000000

/-- `_dispatch_in_flight_stale`. -/
def InFlight.stale (now : Nat) (f : InFlight) : Bool :=
  match f.startedAt with
  | none => true
  | some started => decide (inflightStale < now - started)

structure Metadata where
  inFlight : Option InFlight := none
  codeReviewBlocked : Bool := false
  /-- The text of the last review is there and not blank. -/
  codeReviewMd : Bool := false
  codeFixIteration : Nat := 0

def maxCodeFixIterations : Nat := 3

def Metadata.fixLoopExhausted (md : Metadata) : Bool :=
  md.codeReviewBlocked && decide (maxCodeFixIterations ≤ md.codeFixIteration)

inductive DispatchReply where
  | projectNotFound
  | noResumeAction
  | skipped
  | dispatchInFlight
  | actionNotAllowed
  | fixLoopExhausted
  | pendingDecisions
  | reset
  | started
  | raised
  deriving DecidableEq

/-- Where a request or its worker stands; each stage but the last waits for something. -/
inductive DispatchStage where
  | loading
  | loaded (md : Metadata)
  | reaping (resolved : RecoveryAction) (md : Metadata)
  | deciding (resolved : RecoveryAction) (md : Metadata)
  | counting (resolved : RecoveryAction) (md : Metadata)
  | setting (flag : InFlight) (md : Metadata)
  | resetting
  | spawning (flag : InFlight) (md : Metadata)
  | running
  | finished (reply : DispatchReply)

/-- A call that may clear the flag: it reads the project and then writes. -/
inductive ClearStage where
  | loading
  | loaded (md : Metadata)
  | clearing
  | finished

inductive Session where
  | dispatch (action : RecoveryAction) (actor : String) (autoLoop : Bool) (stage : DispatchStage)
  | cancel (stage : ClearStage)
  | status (stage : ClearStage)

structure Store where
  metadata : Metadata := {}
  now : Nat := 0

/-- What a session meets at a step: whether the awaited call goes through, whether the project is
there, what the rest of its metadata allows, and how many decisions are pending. -/
structure Answer where
  ok : Bool := true
  found : Bool := true
  picked : Option RecoveryAction := none
  allowed : List RecoveryAction := []
  pending : Nat := 0

def Store.clearFlag (st : Store) : Store :=
  { st with metadata := { st.metadata with inFlight := none } }

def Store.setFlag (st : Store) (flag : InFlight) : Store :=
  { st with metadata := { st.metadata with inFlight := some flag } }

def Store.resetFixLoop (st : Store) : Store :=
  { st with metadata := { st.metadata with codeReviewBlocked := false, codeFixIteration := 0 } }

/-- The last check of a request, and the flag that it is going to write. -/
def startIfAllowed (actor : String) (now : Nat) (resolved : RecoveryAction) (md : Metadata)
    (a : Answer) : DispatchStage :=
  if resolved ∈ a.allowed then
    match dispatchKind resolved with
    | some kind => .setting ⟨resolved, kind, actor, some now⟩ md
    | none => .finished .raised
  else .finished .actionNotAllowed

/-- The checks of `recovery_dispatch` on the metadata that it has read. -/
def decideDispatch (actor : String) (autoLoop : Bool) (now : Nat) (resolved : RecoveryAction)
    (md : Metadata) (a : Answer) : DispatchStage :=
  match md.inFlight.filter fun f => !f.stale now with
  | some f =>
    if autoLoop ∧ resolved = .retryEngineerRemediate ∧ f.action = .retryEngineerRemediate then
      .finished .skipped
    else .finished .dispatchInFlight
  | none =>
    match resolved with
    | .resetFixLoop =>
      if md.fixLoopExhausted ∨ (md.codeReviewBlocked ∧ 0 < md.codeFixIteration) then .resetting
      else .finished .actionNotAllowed
    | .retryEngineerRemediate =>
      if autoLoop then
        if md.fixLoopExhausted then .finished .fixLoopExhausted
        else startIfAllowed actor now resolved md a
      -- The guard says first that the loop is exhausted, and a manual request goes on then.
      else if md.fixLoopExhausted then startIfAllowed actor now resolved md a
      else .counting resolved md
    | resolved => startIfAllowed actor now resolved md a

/-- `recovery_dispatch` up to its next wait, then `_run_recovery_orchestration`. -/
def runDispatch (action : RecoveryAction) (actor : String) (autoLoop : Bool) (st : Store)
    (stage : DispatchStage) (a : Answer) : Store × DispatchStage :=
  match stage with
  | .loading =>
    (st, if a.ok then if a.found then .loaded st.metadata else .finished .projectNotFound
      else .finished .raised)
  | .loaded md =>
    match (if action = .resume then a.picked else some action) with
    | none => (st, .finished .noResumeAction)
    | some resolved =>
      if md.inFlight.any fun f => f.stale st.now then (st, .reaping resolved md)
      else (st, decideDispatch actor autoLoop st.now resolved md a)
  | .reaping resolved md =>
    if a.ok then (st.clearFlag, .deciding resolved { md with inFlight := none })
    else (st, .finished .raised)
  | .deciding resolved md => (st, decideDispatch actor autoLoop st.now resolved md a)
  | .counting resolved md =>
    if a.ok then
      if 0 < a.pending then (st, .finished .pendingDecisions)
      else (st, startIfAllowed actor st.now resolved md a)
    else (st, .finished .raised)
  | .setting flag md =>
    if a.ok then (st.setFlag flag, .spawning flag md) else (st, .finished .raised)
  | .resetting => if a.ok then (st.resetFixLoop, .finished .reset) else (st, .finished .raised)
  | .spawning _ _ => (st, if a.ok then .running else .finished .raised)
  | .running => if a.ok then (st.clearFlag, .finished .started) else (st, .finished .started)
  | .finished reply => (st, .finished reply)

/-- `recovery_cancel_inflight` clears any flag that it reads, `recovery_status` a stale one. -/
def runClear (clears : Metadata → Bool) (st : Store) (stage : ClearStage) (a : Answer) :
    Store × ClearStage :=
  match stage with
  | .loading => (st, if a.ok && a.found then .loaded st.metadata else .finished)
  | .loaded md => (st, if clears md then .clearing else .finished)
  | .clearing => (if a.ok then st.clearFlag else st, .finished)
  | .finished => (st, .finished)

def Session.run (st : Store) (s : Session) (a : Answer) : Store × Session :=
  match s with
  | .dispatch action actor autoLoop stage =>
    let next := runDispatch action actor autoLoop st stage a
    (next.1, .dispatch action actor autoLoop next.2)
  | .cancel stage =>
    let next := runClear (fun md => md.inFlight.isSome) st stage a
    (next.1, .cancel next.2)
  | .status stage =>
    let next := runClear (fun md => md.inFlight.any fun f => f.stale st.now) st stage a
    (next.1, .status next.2)

abbrev Desk := Pool Store Session

inductive Event where
  | dispatch (action : RecoveryAction) (actor : String) (autoLoop : Bool)
  | cancel
  | status
  | advance (session : Nat) (answer : Answer)
  | clock (now : Nat)
  /-- A role or another handler writes what the review has found. -/
  | review (blocked text : Bool) (iteration : Nat)

def Desk.step (d : Desk) : Event → Option Desk
  | .dispatch action actor autoLoop => some (d.add (.dispatch action actor autoLoop .loading))
  | .cancel => some (d.add (.cancel .loading))
  | .status => some (d.add (.status .loading))
  | .advance i a => d.advance Session.run i a
  | .clock now => some ⟨{ d.store with now := now }, d.sessions⟩
  | .review blocked text iteration =>
    some ⟨{ d.store with metadata := { d.store.metadata with
      codeReviewBlocked := blocked, codeReviewMd := text, codeFixIteration := iteration } },
      d.sessions⟩

/-! ## One worker, and its flag -/

/-- A worker is in flight from the write that announces it to the write that withdraws it. -/
def Session.working : Session → Bool
  | .dispatch _ _ _ (.spawning _ _) | .dispatch _ _ _ .running => true
  | _ => false

def Desk.workers (d : Desk) : Nat := d.sessions.countP Session.working

def Desk.flagged (d : Desk) : Bool := d.store.metadata.inFlight.isSome

structure Exclusive (d : Desk) : Prop where
  one : d.workers ≤ 1
  flagged : d.flagged = true ↔ 0 < d.workers

/-- What the two properties ask of a step: a flag is written over no other and its worker starts,
the worker takes the flag with it, and no other call clears a flag while a worker is in flight. -/
def Session.KeepsFlag (d : Desk) (a : Answer) : Session → Prop
  | .dispatch _ _ _ (.setting _ _) => a.ok = true → d.flagged = false
  | .dispatch _ _ _ (.spawning _ _) | .dispatch _ _ _ .running => a.ok = true
  | .dispatch _ _ _ (.reaping _ _) | .cancel .clearing | .status .clearing =>
    a.ok = true → d.workers = 0
  | _ => True

def KeepsFlag (d : Desk) : Event → Prop
  | .advance i a => ∀ s ∈ d.sessions[i]?, s.KeepsFlag d a
  | _ => True

section Steps
variable {d : Desk} {s : Session} {a : Answer}

theorem exclusive_iff : Exclusive d ↔ d.workers = d.flagged.toNat := by
  constructor
  · intro h
    have hone := h.one
    cases hflag : d.flagged with
    | true =>
      have hsome := h.flagged.mp hflag
      simp only [Bool.toNat_true]
      omega
    | false =>
      have hnone : ¬ 0 < d.workers := fun hw => absurd (h.flagged.mpr hw) (by simp [hflag])
      simp only [Bool.toNat_false]
      omega
  · intro h
    cases hflag : d.flagged with
    | true =>
      rw [hflag, Bool.toNat_true] at h
      exact ⟨by omega, by simp [hflag, h]⟩
    | false =>
      rw [hflag, Bool.toNat_false] at h
      exact ⟨by omega, by simp [hflag, h]⟩

theorem startIfAllowed_not_working (action : RecoveryAction) (actor : String) (autoLoop : Bool)
    (now : Nat) (resolved : RecoveryAction) (md : Metadata) (a : Answer) :
    (Session.dispatch action actor autoLoop
      (startIfAllowed actor now resolved md a)).working = false := by
  unfold startIfAllowed
  split
  · split <;> rfl
  · rfl

theorem decideDispatch_not_working (action : RecoveryAction) (actor : String) (autoLoop : Bool)
    (now : Nat) (resolved : RecoveryAction) (md : Metadata) (a : Answer) :
    (Session.dispatch action actor autoLoop
      (decideDispatch actor autoLoop now resolved md a)).working = false := by
  have hstart := startIfAllowed_not_working action actor autoLoop now resolved md a
  unfold decideDispatch
  split
  · split <;> rfl
  · split
    · split <;> rfl
    · split_ifs
      · rfl
      · exact hstart
      · exact hstart
      · rfl
    · exact hstart

/-- What a session's step does to the flag and to its own worker, if it has one. -/
inductive Session.Effect (d : Desk) (a : Answer) (s : Session) : Prop where
  | none (flag : (s.run d.store a).1.metadata.inFlight = d.store.metadata.inFlight)
      (worker : (s.run d.store a).2.working = s.working) (keeps : s.KeepsFlag d a)
  | announce (flag : (s.run d.store a).1.metadata.inFlight.isSome = true)
      (idle : s.working = false) (worker : (s.run d.store a).2.working = true)
      (keeps : s.KeepsFlag d a ↔ d.flagged = false)
  | withdraw (flag : (s.run d.store a).1.metadata.inFlight = Option.none)
      (busy : s.working = true) (worker : (s.run d.store a).2.working = false)
      (keeps : s.KeepsFlag d a)
  | lose (flag : (s.run d.store a).1.metadata.inFlight = d.store.metadata.inFlight)
      (busy : s.working = true) (worker : (s.run d.store a).2.working = false)
      (keeps : ¬ s.KeepsFlag d a)
  | clear (flag : (s.run d.store a).1.metadata.inFlight = Option.none)
      (idle : s.working = false) (worker : (s.run d.store a).2.working = false)
      (keeps : s.KeepsFlag d a ↔ d.workers = 0)

theorem Session.Effect.of_clearing
    (hstore : (s.run d.store a).1 = if a.ok then d.store.clearFlag else d.store)
    (hidle : s.working = false) (hworker : (s.run d.store a).2.working = false)
    (hkeeps : s.KeepsFlag d a ↔ (a.ok = true → d.workers = 0)) : s.Effect d a := by
  cases hok : a.ok with
  | true =>
    rw [hok, if_pos rfl] at hstore
    exact .clear (by rw [hstore]; rfl) hidle hworker (by simpa [hok] using hkeeps)
  | false =>
    rw [hok, if_neg (by simp)] at hstore
    exact .none (by rw [hstore]) (hworker.trans hidle.symm) (hkeeps.mpr (by simp [hok]))

theorem Session.effect (d : Desk) (a : Answer) (s : Session) : s.Effect d a := by
  cases s with
  | cancel stage =>
    cases stage with
    | loading => exact .none rfl rfl trivial
    | loaded md => exact .none rfl rfl trivial
    | clearing => exact .of_clearing rfl rfl rfl Iff.rfl
    | finished => exact .none rfl rfl trivial
  | status stage =>
    cases stage with
    | loading => exact .none rfl rfl trivial
    | loaded md => exact .none rfl rfl trivial
    | clearing => exact .of_clearing rfl rfl rfl Iff.rfl
    | finished => exact .none rfl rfl trivial
  | dispatch action actor autoLoop stage =>
    cases stage with
    | loading =>
      refine .none rfl ?_ trivial
      simp only [Session.run, runDispatch]
      split_ifs <;> rfl
    | loaded md =>
      cases hresolved : (if action = .resume then a.picked else some action) with
      | none =>
        refine .none ?_ ?_ trivial <;> simp only [Session.run, runDispatch, hresolved]
        rfl
      | some resolved =>
        refine .none ?_ ?_ trivial <;> simp only [Session.run, runDispatch, hresolved]
        · split_ifs <;> rfl
        · split_ifs
          · rfl
          · exact decideDispatch_not_working ..
    | reaping resolved md =>
      refine .of_clearing ?_ rfl ?_ Iff.rfl <;> simp only [Session.run, runDispatch] <;>
        split_ifs <;> rfl
    | deciding resolved md => exact .none rfl (decideDispatch_not_working ..) trivial
    | counting resolved md =>
      refine .none ?_ ?_ trivial <;> simp only [Session.run, runDispatch]
      · split_ifs <;> rfl
      · split_ifs
        · rfl
        · exact startIfAllowed_not_working ..
        · rfl
    | setting flag md =>
      cases hok : a.ok with
      | true =>
        refine .announce ?_ rfl ?_ ?_ <;> simp [Session.run, runDispatch, hok, KeepsFlag]
        · rfl
        · rfl
      | false =>
        refine .none ?_ ?_ ?_ <;> simp [Session.run, runDispatch, hok, KeepsFlag]
        rfl
    | resetting =>
      refine .none ?_ ?_ trivial <;> simp only [Session.run, runDispatch] <;> split_ifs <;> rfl
    | spawning flag md =>
      cases hok : a.ok with
      | true =>
        refine .none rfl ?_ hok
        simp [Session.run, runDispatch, hok, working]
      | false =>
        refine .lose rfl rfl ?_ ?_
        · simp [Session.run, runDispatch, hok, working]
        · simp [KeepsFlag, hok]
    | running =>
      cases hok : a.ok with
      | true =>
        refine .withdraw ?_ rfl ?_ hok
        · simp [Session.run, runDispatch, hok, Store.clearFlag]
        · simp [Session.run, runDispatch, hok, working]
      | false =>
        refine .lose ?_ rfl ?_ ?_ <;> simp [Session.run, runDispatch, hok, working, KeepsFlag]
    | finished reply => exact .none rfl rfl trivial

theorem workers_add (hs : s.working = false) : Desk.workers (d.add s) = d.workers := by
  simp [Desk.workers, Pool.add, List.countP_append, hs]

/-- A step keeps one worker and its flag together just when it does what is asked of it. -/
theorem exclusive_step {d' : Desk} {e : Event} (hd : Exclusive d) (hstep : d.step e = some d') :
    Exclusive d' ↔ KeepsFlag d e := by
  have hadd : ∀ s : Session, s.working = false → (Exclusive (d.add s) ↔ True) := fun s hs => by
    rw [exclusive_iff, workers_add hs]
    exact iff_true_intro (exclusive_iff.mp hd)
  cases e with
  | dispatch action actor autoLoop => exact Option.some.inj hstep ▸ hadd _ rfl
  | cancel => exact Option.some.inj hstep ▸ hadd _ rfl
  | status => exact Option.some.inj hstep ▸ hadd _ rfl
  | clock now => exact Option.some.inj hstep ▸ iff_true_intro ⟨hd.one, hd.flagged⟩
  | review blocked text iteration =>
    exact Option.some.inj hstep ▸ iff_true_intro ⟨hd.one, hd.flagged⟩
  | advance i a =>
    obtain ⟨s, hs, rfl⟩ := Pool.advance_eq_some hstep
    have hkeeps : KeepsFlag d (.advance i a) ↔ s.KeepsFlag d a := by
      simp only [KeepsFlag, hs, Option.mem_some_iff, forall_eq']
    have hbefore := exclusive_iff.mp hd
    have hafter : Exclusive ⟨(s.run d.store a).1, d.sessions.set i (s.run d.store a).2⟩ ↔
        d.workers + (s.run d.store a).2.working.toNat =
          (s.run d.store a).1.metadata.inFlight.isSome.toNat + s.working.toNat := by
      have hcount := countP_set_add Session.working (s.run d.store a).2 hs
      rw [exclusive_iff, Desk.workers, Desk.workers, Desk.flagged, ← hcount]
      exact (Nat.add_right_cancel_iff).symm
    rw [hkeeps, hafter]
    cases s.effect d a with
    | none flag worker keeps =>
      rw [flag, worker]
      exact iff_of_true (congrArg (· + _) hbefore) keeps
    | announce flag idle worker keeps =>
      rw [flag, idle, worker, keeps, hbefore]
      cases d.flagged <;> decide
    | withdraw flag busy worker keeps =>
      -- The worker that ends was the only one.
      have hone : 0 < d.workers := List.countP_pos_iff.mpr ⟨s, List.mem_of_getElem? hs, busy⟩
      have hle := hd.one
      rw [flag, busy, worker]
      exact iff_of_true (by simp; omega) keeps
    | lose flag busy worker keeps =>
      have hone : 0 < d.workers := List.countP_pos_iff.mpr ⟨s, List.mem_of_getElem? hs, busy⟩
      have hflag : d.store.metadata.inFlight.isSome = true := hd.flagged.mpr hone
      have hle := hd.one
      rw [flag, hflag, busy, worker]
      exact iff_of_false (by simp; omega) keeps
    | clear flag idle worker keeps =>
      rw [flag, idle, worker, keeps]
      simp

end Steps

/-- A project without a flag, and nothing under way. -/
def Desk.idle (st : Store) : Desk := ⟨st.clearFlag, []⟩

theorem Desk.idle_exclusive (st : Store) : Exclusive (Desk.idle st) :=
  ⟨Nat.zero_le 1, by simp [Desk.idle, Desk.flagged, Desk.workers, Store.clearFlag]⟩

end SpineFormal.Hub.Recovery
