import SpineFormal.Base.Run
import SpineFormal.Orchestrator.Transition
import Mathlib.Data.List.Count

/-!
# Remediation and replanning under a retry budget

`remediation_dispatch` sends a failed verification back to building,
`bfr_route` a failed build back to planning. Both count the loops made so far
in the transition log, dispatch a directive, and then ask for the transition
that the next count relies on.
-/

namespace SpineFormal.Orchestrator

set_option autoImplicit false

/-- The two loops differ in the phases they go between, in their cap and in the actor's name. -/
structure LoopPolicy where
  kind : DirectiveKind
  fromPhase : Phase
  toPhase : Phase
  cap : Nat
  actor : String
  differs : fromPhase ≠ toPhase := by decide

def remediationPolicy : LoopPolicy :=
  { kind := .remediation, fromPhase := .verifyInProgress, toPhase := .buildInProgress,
    cap := verifyBuildLoopMax, actor := "orchestrator.remediation" }

def replanPolicy : LoopPolicy :=
  { kind := .replan, fromPhase := .buildInProgress, toPhase := .planInProgress,
    cap := buildPlanLoopMax, actor := "orchestrator.build_failure_router" }

/-- What the subsystem and the database answer to `route_dispatch_to_subsystem`. -/
structure RouterAnswers where
  lookup : Bool := true
  /-- The locked pipeline version, if it can be read. -/
  pipelineVersion : Option String
  /-- The `directive_id` of the reply, empty where the reply has none. -/
  reply : Option String
  inserts : Bool := true

structure CallAnswers where
  lookup : Bool := true
  counts : Bool := true
  surfaces : Bool := true
  router : RouterAnswers
  transition : TransitionAnswers := {}

def routeDispatchToSubsystem (st : Lifecycle) (kind : DirectiveKind) (sub role : String)
    (a : RouterAnswers) : Nat × Lifecycle :=
  match a.pipelineVersion, a.reply with
  | none, _ => (2, st)
  | some version, reply =>
    if version = "" then (3, st)
    else
      match reply with
      | none => (6, st)
      | some did =>
        if did = "" then (7, st)
        else
          -- From here on the subsystem has the directive, whatever the database does.
          let st := { st with directives := st.directives ++ [⟨kind, did⟩] }
          if a.inserts then (0, { st with routeHistory := st.routeHistory ++ [⟨did, sub, role⟩] })
          else (8, st)

/-- `${row//[[:space:]]/}` -/
def withoutSpace (s : String) : String :=
  String.ofList (s.toList.filter fun c => c ∉ [' ', '\t', '\n', '\x0b', '\x0c', '\r'])

def routeDispatchRemediation (st : Lifecycle) (failedDid targetSub : String) (a : RouterAnswers) :
    Nat × Lifecycle :=
  if a.lookup then
    match st.routeHistory.find? fun r => r.directiveRef = failedDid with
    | none => (12, st)
    | some row => routeDispatchToSubsystem st .remediation targetSub (withoutSpace row.role) a
  else (11, st)

/-- The loops of a policy in the transition log. -/
def loops (p : LoopPolicy) (st : Lifecycle) : Nat :=
  st.transitions.countP fun r => decide (r.fromPhase = p.fromPhase ∧ r.toPhase = p.toPhase)

def checkRetry (p : LoopPolicy) (st : Lifecycle) (counts : Bool) : Except Nat Nat :=
  if counts then
    if p.cap ≤ loops p st then .error 3 else .ok (p.cap - loops p st)
  else .error 6

def surfaceToUser (p : LoopPolicy) (st : Lifecycle) (surfaces : Bool) : Lifecycle :=
  if surfaces then { st with status := .paused, blockedBy := some p.actor } else st

/-- The transition after a dispatch, with the exit code of the whole call. -/
def transitionAfter (p : LoopPolicy) (yq : Bool) (sent : Nat × Lifecycle) (a : TransitionAnswers) :
    Nat × Lifecycle :=
  if sent.1 = 0 then
    match transitionExecute yq sent.2 p.toPhase p.actor a with
    | .error _ => (5, sent.2)
    | .ok st' => (0, st')
  else (4, sent.2)

/-- The common part of the two calls, from the lookup of the failed directive on. -/
def loopBack (p : LoopPolicy) (yq : Bool) (st : Lifecycle) (failedDid : String)
    (dispatch : Lifecycle → Nat × Lifecycle) (a : CallAnswers) : Nat × Lifecycle :=
  if a.lookup then
    if st.routeHistory.any fun r => r.directiveRef = failedDid then
      match checkRetry p st a.counts with
      | .error rc => (rc, if rc = 3 then surfaceToUser p st a.surfaces else st)
      | .ok _ => transitionAfter p yq (dispatch st) a.transition
    else (2, st)
  else (6, st)

def remediationDispatch (yq : Bool) (st : Lifecycle) (failedDid findingsJson : String)
    (a : CallAnswers) : Nat × Lifecycle :=
  if failedDid = "" ∨ findingsJson = "" then (2, st)
  else
    loopBack remediationPolicy yq st failedDid
      (fun st => routeDispatchRemediation st failedDid "build" a.router) a

def validReasons : List String :=
  ["scope_unclear", "requirements_incomplete", "blocked_by_dependency", "needs_decision"]

def bfrRoute (yq : Bool) (st : Lifecycle) (failedDid reason : String) (a : CallAnswers) :
    Nat × Lifecycle :=
  if failedDid = "" ∨ reason ∉ validReasons then (2, st)
  else
    loopBack replanPolicy yq st failedDid
      (fun st => routeDispatchToSubsystem st .replan "plan" "planner" a.router) a

def dispatched (kind : DirectiveKind) (st : Lifecycle) : Nat :=
  st.directives.countP fun d => decide (d.kind = kind)

/-- What happens to one project: the two calls, and in between the transitions, rollbacks and
dispatches of others. -/
inductive Call where
  | remediationDispatch (failedDid findingsJson : String) (a : CallAnswers)
  | bfrRoute (failedDid reason : String) (a : CallAnswers)
  | transitionExecute (target : Phase) (actor : String) (a : TransitionAnswers)
  | transitionRollback (target : Phase) (actor rationale : String) (a : TransitionAnswers)
  | routed (row : RouteRow)

def Lifecycle.call (yq : Bool) (st : Lifecycle) : Call → Lifecycle
  | .remediationDispatch did findings a => (remediationDispatch yq st did findings a).2
  | .bfrRoute did reason a => (SpineFormal.Orchestrator.bfrRoute yq st did reason a).2
  | .transitionExecute target actor a =>
    (SpineFormal.Orchestrator.transitionExecute yq st target actor a).toOption.getD st
  | .transitionRollback target actor rationale a =>
    (SpineFormal.Orchestrator.transitionRollback yq st target actor rationale a).toOption.getD st
  | .routed row => { st with routeHistory := st.routeHistory ++ [row] }

/-- The transition asked for after the dispatch goes through, from the phase that is counted. -/
structure LogsLoop (p : LoopPolicy) (yq : Bool) (st : Lifecycle) (a : CallAnswers) : Prop where
  phase : st.currentPhase = some p.fromPhase
  next : p.toPhase ∈ allowedNext yq p.fromPhase
  gate : transitionGateCheck yq p.toPhase a.transition = .ok ()
  readable : a.transition.readable = true
  rereadable : a.transition.rereadable = true
  commits : a.transition.commits = true
  inserts : a.router.inserts = true

/-- The subsystem takes the directive of the call. -/
def Accepts (a : CallAnswers) : Prop := ∃ did, a.router.reply = some did ∧ did ≠ ""

/-- Whatever the subsystem takes, the transition log will show. -/
def DispatchesLogged (yq : Bool) (st : Lifecycle) : Call → Prop
  | .remediationDispatch _ _ a => Accepts a → LogsLoop remediationPolicy yq st a
  | .bfrRoute _ _ a => Accepts a → LogsLoop replanPolicy yq st a
  | _ => True

/-- What a dispatch through the router can do. -/
def Dispatches (kind : DirectiveKind) (a : RouterAnswers) (st : Lifecycle)
    (sent : Nat × Lifecycle) : Prop :=
  (sent.1 ≠ 0 ∧ sent.2 = st) ∨
  ∃ did, a.reply = some did ∧ did ≠ "" ∧ (a.inserts = true → sent.1 = 0) ∧
    sent.2.currentPhase = st.currentPhase ∧ sent.2.transitions = st.transitions ∧
      sent.2.directives = st.directives ++ [⟨kind, did⟩]

theorem Dispatches.refused {kind : DirectiveKind} {a : RouterAnswers} {st : Lifecycle} {rc : Nat}
    (h : rc ≠ 0) : Dispatches kind a st (rc, st) :=
  .inl ⟨h, rfl⟩

theorem dispatches_routeDispatchToSubsystem (st : Lifecycle) (kind : DirectiveKind)
    (sub role : String) (a : RouterAnswers) :
    Dispatches kind a st (routeDispatchToSubsystem st kind sub role a) := by
  unfold routeDispatchToSubsystem
  split
  · exact .refused (by decide)
  · split
    · exact .refused (by decide)
    · split
      · exact .refused (by decide)
      · rename_i did hreply
        by_cases hdid : did = ""
        · rw [if_pos hdid]
          exact .refused (by decide)
        · rw [if_neg hdid]
          refine .inr ⟨did, hreply, hdid, ?_⟩
          by_cases hinserts : a.inserts = true <;> simp [hinserts]

theorem dispatches_routeDispatchRemediation (st : Lifecycle) (failedDid sub : String)
    (a : RouterAnswers) :
    Dispatches .remediation a st (routeDispatchRemediation st failedDid sub a) := by
  unfold routeDispatchRemediation
  split
  · split
    · exact .refused (by decide)
    · apply dispatches_routeDispatchToSubsystem
  · exact .refused (by decide)

theorem loops_lt_of_checkRetry {p : LoopPolicy} {st : Lifecycle} {counts : Bool} {remaining : Nat}
    (h : checkRetry p st counts = .ok remaining) : loops p st < p.cap := by
  unfold checkRetry at h
  split_ifs at h with hcounts hcap
  exact Nat.lt_of_not_le hcap

theorem transitionAfter_cases (p : LoopPolicy) (yq : Bool) (sent : Nat × Lifecycle)
    (a : TransitionAnswers) :
    ∃ rows, (transitionAfter p yq sent a).2.transitions = sent.2.transitions ++ rows ∧
      (transitionAfter p yq sent a).2.directives = sent.2.directives := by
  unfold transitionAfter
  split
  · split
    · exact ⟨[], (List.append_nil _).symm, rfl⟩
    · rename_i st' hexecute
      obtain ⟨current, -, -, -, rfl⟩ := transitionExecute_eq_ok_iff.mp hexecute
      exact ⟨_, rfl, rfl⟩
  · exact ⟨[], (List.append_nil _).symm, rfl⟩

theorem transitionAfter_logs {p : LoopPolicy} {yq : Bool} {st : Lifecycle} {sent : Nat × Lifecycle}
    {a : CallAnswers} (h : LogsLoop p yq st a) (hsent : sent.1 = 0)
    (hphase : sent.2.currentPhase = st.currentPhase) :
    (transitionAfter p yq sent a.transition).2.transitions =
      sent.2.transitions ++ [⟨p.fromPhase, p.toPhase, p.actor⟩] := by
  have hvalid : transitionValidate yq sent.2 p.toPhase a.transition = .ok p.fromPhase :=
    transitionValidate_eq_ok_iff.mpr ⟨h.readable, hphase.trans h.phase, p.differs, h.next⟩
  have hexecute : transitionExecute yq sent.2 p.toPhase p.actor a.transition = .ok _ :=
    transitionExecute_eq_ok_iff.mpr ⟨p.fromPhase, hvalid, h.gate, h.commits, rfl⟩
  rw [transitionAfter, if_pos hsent, hexecute, h.rereadable]
  rfl

/-- Nothing is dispatched, or one directive is while the log shows fewer loops than the cap. -/
theorem loopBack_cases {p : LoopPolicy} (yq : Bool) {st : Lifecycle} (failedDid : String)
    {dispatch : Lifecycle → Nat × Lifecycle} {a : CallAnswers}
    (hdispatch : Dispatches p.kind a.router st (dispatch st)) :
    ∃ rows, (loopBack p yq st failedDid dispatch a).2.transitions = st.transitions ++ rows ∧
      ((loopBack p yq st failedDid dispatch a).2.directives = st.directives ∨
        ∃ did, Accepts a ∧ loops p st < p.cap ∧
          (loopBack p yq st failedDid dispatch a).2.directives = st.directives ++ [⟨p.kind, did⟩] ∧
            (LogsLoop p yq st a → rows = [⟨p.fromPhase, p.toPhase, p.actor⟩])) := by
  unfold loopBack
  split
  · split
    · cases hretry : checkRetry p st a.counts with
      | error rc =>
        refine ⟨[], ?_, .inl ?_⟩ <;> by_cases hrc : rc = 3 <;>
          by_cases hsurfaces : a.surfaces = true <;> simp [surfaceToUser, hrc, hsurfaces]
      | ok remaining =>
        have hcap := loops_lt_of_checkRetry hretry
        obtain ⟨rows, hrows, hdirectives⟩ := transitionAfter_cases p yq (dispatch st) a.transition
        rcases hdispatch with ⟨-, hsame⟩ | ⟨did, hreply, hdid, hrc, hphase, hlog, hsent⟩
        · rw [hsame] at hrows hdirectives
          exact ⟨rows, hrows, .inl hdirectives⟩
        · rw [hlog] at hrows
          rw [hsent] at hdirectives
          refine ⟨rows, hrows, .inr ⟨did, ⟨did, hreply, hdid⟩, hcap, hdirectives, ?_⟩⟩
          intro h
          have hlogged := transitionAfter_logs h (hrc h.inserts) hphase
          rw [hlog] at hlogged
          exact List.append_cancel_left (hrows.symm.trans hlogged)
    · exact ⟨[], (List.append_nil _).symm, .inl rfl⟩
  · exact ⟨[], (List.append_nil _).symm, .inl rfl⟩

/-- The budget of a loop is kept, with what the transition log has to show for it. -/
structure WithinBudget (p : LoopPolicy) (st : Lifecycle) : Prop where
  logged : dispatched p.kind st ≤ loops p st
  capped : dispatched p.kind st ≤ p.cap

/-- The log only grows, so what is not dispatched keeps the budget. -/
theorem WithinBudget.of_log {p : LoopPolicy} {st st' : Lifecycle} {rows : List TransitionRow}
    (h : WithinBudget p st) (hlog : st'.transitions = st.transitions ++ rows)
    (hsame : dispatched p.kind st' = dispatched p.kind st) : WithinBudget p st' := by
  have hloops : loops p st ≤ loops p st' := by
    rw [loops, loops, hlog, List.countP_append]
    exact Nat.le_add_right _ _
  exact ⟨hsame ▸ Nat.le_trans h.logged hloops, hsame ▸ h.capped⟩

theorem dispatched_append (kind : DirectiveKind) {st st' : Lifecycle} {d : Directive}
    (h : st'.directives = st.directives ++ [d]) :
    dispatched kind st' = dispatched kind st + if d.kind = kind then 1 else 0 := by
  rw [dispatched, dispatched, h, List.countP_append, List.countP_singleton]
  simp

/-- A loop back keeps both budgets: the other's directives are not its own, and its own are logged
before the cap is reached. -/
theorem WithinBudget.loopBack {p q : LoopPolicy} {yq : Bool} {st : Lifecycle} {failedDid : String}
    {dispatch : Lifecycle → Nat × Lifecycle} {a : CallAnswers} (h : WithinBudget q st)
    (hdispatch : Dispatches p.kind a.router st (dispatch st))
    (hlogged : Accepts a → LogsLoop p yq st a) (hpolicy : p.kind = q.kind → p = q) :
    WithinBudget q (loopBack p yq st failedDid dispatch a).2 := by
  obtain ⟨rows, hrows, hsame | ⟨did, haccepts, hcap, hsent, hlogs⟩⟩ :=
    loopBack_cases yq failedDid hdispatch
  · exact h.of_log hrows (by rw [dispatched, dispatched, hsame])
  · have hcount := dispatched_append q.kind hsent
    by_cases hkind : p.kind = q.kind
    · obtain rfl := hpolicy hkind
      rw [hlogs (hlogged haccepts)] at hrows
      rw [if_pos rfl] at hcount
      have hloops : loops p (SpineFormal.Orchestrator.loopBack p yq st failedDid dispatch a).2 =
          loops p st + 1 := by
        rw [loops, loops, hrows, List.countP_append]
        simp
      have := h.logged
      exact ⟨by omega, by omega⟩
    · rw [if_neg hkind] at hcount
      exact h.of_log hrows hcount

def Bounded (st : Lifecycle) : Prop :=
  dispatched .remediation st ≤ verifyBuildLoopMax ∧ dispatched .replan st ≤ buildPlanLoopMax

theorem WithinBudget.call {q : LoopPolicy} {yq : Bool} {st : Lifecycle} {c : Call}
    (h : WithinBudget q st) (hlogged : DispatchesLogged yq st c)
    (hq : q = remediationPolicy ∨ q = replanPolicy) : WithinBudget q (st.call yq c) := by
  cases c with
  | remediationDispatch did findings a =>
    rw [Lifecycle.call, SpineFormal.Orchestrator.remediationDispatch]
    split
    · exact h
    · apply h.loopBack (dispatches_routeDispatchRemediation ..) hlogged
      rcases hq with rfl | rfl <;> simp [remediationPolicy, replanPolicy]
  | bfrRoute did reason a =>
    rw [Lifecycle.call, SpineFormal.Orchestrator.bfrRoute]
    split
    · exact h
    · apply h.loopBack (dispatches_routeDispatchToSubsystem ..) hlogged
      rcases hq with rfl | rfl <;> simp [remediationPolicy, replanPolicy]
  | transitionExecute target actor a =>
    rw [Lifecycle.call]
    cases hexecute : SpineFormal.Orchestrator.transitionExecute yq st target actor a with
    | error code => exact h
    | ok st' =>
      obtain ⟨current, -, -, -, rfl⟩ := transitionExecute_eq_ok_iff.mp hexecute
      exact h.of_log rfl rfl
  | transitionRollback target actor rationale a =>
    rw [Lifecycle.call]
    cases hrollback :
      SpineFormal.Orchestrator.transitionRollback yq st target actor rationale a with
    | error code => exact h
    | ok st' =>
      obtain ⟨current, rfl⟩ := transitionRollback_ok hrollback
      exact h.of_log rfl rfl
  | routed row => exact h.of_log (List.append_nil _).symm rfl

/-- The manifest has no way back from building to planning, so a replan is never logged. -/
theorem dispatchesLogged_bfrRoute_iff (yq : Bool) (st : Lifecycle) (did reason : String)
    (a : CallAnswers) : DispatchesLogged yq st (.bfrRoute did reason a) ↔ ¬ Accepts a := by
  constructor
  · intro h haccepts
    exact planInProgress_not_next yq (h haccepts).next
  · intro h haccepts
    exact absurd haccepts h

theorem WithinBudget.start (p : LoopPolicy) {st : Lifecycle} (h : st.directives = []) :
    WithinBudget p st := by
  have hnone : dispatched p.kind st = 0 := by rw [dispatched, h, List.countP_nil]
  exact ⟨hnone ▸ Nat.zero_le _, hnone ▸ Nat.zero_le _⟩

/-- Along a run in which every accepted directive is logged, both budgets hold. -/
theorem budgets_kept {yq : Bool} {init st : Lifecycle} {calls : List Call}
    (hinit : init.directives = [])
    (hrun : Run (fun s c t => DispatchesLogged yq s c ∧ t = s.call yq c) init calls st) :
    Bounded st := by
  have hboth : WithinBudget remediationPolicy st ∧ WithinBudget replanPolicy st := by
    apply hrun.invariant
      (I := fun _ s => WithinBudget remediationPolicy s ∧ WithinBudget replanPolicy s)
    · exact ⟨.start _ hinit, .start _ hinit⟩
    · rintro _ s t c ⟨hremediation, hreplan⟩ ⟨hlogged, rfl⟩
      exact ⟨hremediation.call hlogged (.inl rfl), hreplan.call hlogged (.inr rfl)⟩
  exact ⟨hboth.1.capped, hboth.2.capped⟩

def accepting (did : String) : CallAnswers :=
  { router := { pipelineVersion := some "1.0", reply := some did } }

def failedBuild (phase : Phase) : Lifecycle :=
  { currentPhase := some phase, routeHistory := [⟨"d0", "build", "engineer"⟩] }

theorem budgets_kept_one_remediation :
    Bounded ((failedBuild .verifyInProgress).call false
      (.remediationDispatch "d0" "[]" (accepting "d1"))) := by
  have hlogged : DispatchesLogged false (failedBuild .verifyInProgress)
      (.remediationDispatch "d0" "[]" (accepting "d1")) :=
    fun _ => ⟨rfl, by decide, rfl, rfl, rfl, rfl, rfl⟩
  exact budgets_kept rfl (.snoc .start ⟨hlogged, rfl⟩)

/-- A project that stays in `build_in_progress` is sent a fourth replan directive, and a sixth
remediation. -/
theorem loops_back_without_end :
    ¬ Bounded ((List.replicate 4 (.bfrRoute "d0" "scope_unclear" (accepting "d1"))).foldl
        (Lifecycle.call false) (failedBuild .buildInProgress)) ∧
      ¬ Bounded ((List.replicate 6 (.remediationDispatch "d0" "[]" (accepting "d1"))).foldl
        (Lifecycle.call false) (failedBuild .buildInProgress)) := by
  constructor
  · intro h
    exact absurd h.2 (by decide)
  · intro h
    exact absurd h.1 (by decide)

end SpineFormal.Orchestrator
