import Mathlib.Data.List.Basic

/-!
# The phase manifest and its transitions

The shipped `phases.yaml`, and `transition_execute` over the state of one project.
The manifest is read with `awk`. When `yq` is on the path the phase is first
rendered as JSON, where the keys stand in quotes, so that the search for `next:`
and `gate:` finds nothing.
-/

namespace SpineFormal.Orchestrator

set_option autoImplicit false

/-- Phases are free text in the database; those of the manifest have a name of their own. -/
inductive Phase where
  | intake
  | planInProgress
  | planApproved
  | buildInProgress
  | buildComplete
  | verifyInProgress
  | verifyApprovedWithWarnings
  | verifyApproved
  | acceptance
  | released
  | operate
  | retro
  | other (id : String)
  deriving DecidableEq

structure PhaseDef where
  id : Phase
  gate : Option String := none
  next : List Phase
  rollbackTo : List Phase

/-- `phases.yaml`, in the parts that the transition engine reads. -/
def phasesYaml : List PhaseDef := [
  { id := .intake, next := [.planInProgress], rollbackTo := [] },
  { id := .planInProgress, next := [.planApproved, .intake], rollbackTo := [.intake] },
  { id := .planApproved, gate := some "user_approval", next := [.buildInProgress],
    rollbackTo := [.planInProgress] },
  { id := .buildInProgress, next := [.buildComplete, .planApproved], rollbackTo := [.planApproved] },
  { id := .buildComplete, next := [.verifyInProgress], rollbackTo := [.buildInProgress] },
  { id := .verifyInProgress,
    next := [.verifyApproved, .verifyApprovedWithWarnings, .buildInProgress],
    rollbackTo := [.buildComplete] },
  { id := .verifyApprovedWithWarnings, gate := some "user_approval",
    next := [.acceptance, .buildInProgress], rollbackTo := [.verifyInProgress, .buildInProgress] },
  { id := .verifyApproved, gate := some "user_approval", next := [.acceptance],
    rollbackTo := [.buildInProgress] },
  { id := .acceptance, gate := some "user_approval", next := [.released],
    rollbackTo := [.buildInProgress] },
  { id := .released, gate := some "user_approval", next := [.operate], rollbackTo := [.acceptance] },
  { id := .operate, next := [.retro, .buildInProgress], rollbackTo := [.released] },
  { id := .retro, next := [], rollbackTo := [] }]

/-- `retry_policy.verify_build_loop_max`. -/
def verifyBuildLoopMax : Nat := 5

/-- The manifest has no `build_plan_loop_max`, so the script's default counts. -/
def buildPlanLoopMax : Nat := 3

def loadPhaseDef (yq : Bool) (phase : Phase) : Option PhaseDef :=
  if yq then none else phasesYaml.find? fun d => decide (d.id = phase)

def allowedNext (yq : Bool) (phase : Phase) : List Phase :=
  ((loadPhaseDef yq phase).map PhaseDef.next).getD []

def allowedRollback (yq : Bool) (phase : Phase) : List Phase :=
  ((loadPhaseDef yq phase).map PhaseDef.rollbackTo).getD []

def phaseGate (yq : Bool) (phase : Phase) : Option String := (loadPhaseDef yq phase).bind PhaseDef.gate

/-- A row of `spine_lifecycle.transition` with the decision `allowed`. -/
structure TransitionRow where
  fromPhase : Phase
  toPhase : Phase
  actor : String

inductive ProjectStatus where
  | active
  | paused
  | terminated
  | completed
  deriving DecidableEq

/-- A row of `route_history`. -/
structure RouteRow where
  directiveRef : String
  subsystem : String
  role : String

inductive DirectiveKind where
  | remediation
  | replan
  deriving DecidableEq

/-- A directive that a subsystem accepted. -/
structure Directive where
  kind : DirectiveKind
  id : String

/-- What the database and the subsystems hold about one project. -/
structure Lifecycle where
  currentPhase : Option Phase
  status : ProjectStatus := .active
  blockedBy : Option String := none
  transitions : List TransitionRow := []
  routeHistory : List RouteRow := []
  directives : List Directive := []

/-- What the database answers to `transition_execute`: whether the phase can be read to validate and
once more for the log, whether a valid approval is there, and whether the transaction commits. -/
structure TransitionAnswers where
  readable : Bool := true
  rereadable : Bool := true
  approval : Bool := true
  commits : Bool := true

/-- The exit code on failure, else the phase the project is in. -/
def transitionValidate (yq : Bool) (st : Lifecycle) (target : Phase) (a : TransitionAnswers) :
    Except Nat Phase :=
  match (if a.readable then st.currentPhase else none) with
  | none => .error 2
  | some current =>
    if current = target then .error 3
    else if target ∈ allowedNext yq current then .ok current
    else .error 4

def transitionGateCheck (yq : Bool) (target : Phase) (a : TransitionAnswers) : Except Nat Unit :=
  match phaseGate yq target with
  | none => .ok ()
  | some _ => if a.approval then .ok () else .error 5

def Lifecycle.moveTo (st : Lifecycle) (source target : Phase) (actor : String) : Lifecycle :=
  { st with currentPhase := some target,
            transitions := st.transitions ++ [⟨source, target, actor⟩] }

def transitionExecute (yq : Bool) (st : Lifecycle) (target : Phase) (actor : String)
    (a : TransitionAnswers) : Except Nat Lifecycle := do
  let current ← transitionValidate yq st target a
  transitionGateCheck yq target a
  -- A second read that fails leaves the variable empty, and the row is written all the same.
  let source := if a.rereadable then current else .other ""
  if a.commits then .ok (st.moveTo source target actor) else .error 6

def transitionRollback (yq : Bool) (st : Lifecycle) (target : Phase) (actor rationale : String)
    (a : TransitionAnswers) : Except Nat Lifecycle :=
  if rationale = "" then .error 7
  else
    match (if a.readable then st.currentPhase else none) with
    | none => .error 2
    | some current =>
      if target ∈ allowedRollback yq current then
        if a.commits then .ok (st.moveTo current target actor) else .error 6
      else .error 4

theorem transitionValidate_eq_ok_iff {yq : Bool} {st : Lifecycle} {target current : Phase}
    {a : TransitionAnswers} :
    transitionValidate yq st target a = .ok current ↔
      a.readable = true ∧ st.currentPhase = some current ∧ current ≠ target ∧
        target ∈ allowedNext yq current := by
  unfold transitionValidate
  constructor
  · intro h
    split at h
    · cases h
    · rename_i found hfound
      split_ifs at h with hsame hnext
      obtain rfl := Except.ok.inj h
      split_ifs at hfound with hreadable
      exact ⟨hreadable, hfound, hsame, hnext⟩
  · rintro ⟨hreadable, hcurrent, hdiffers, hnext⟩
    rw [if_pos hreadable, hcurrent]
    simp [hdiffers, hnext]

/-- A transition that goes through logs exactly one row. -/
theorem transitionExecute_eq_ok_iff {yq : Bool} {st st' : Lifecycle} {target : Phase}
    {actor : String} {a : TransitionAnswers} :
    transitionExecute yq st target actor a = .ok st' ↔
      ∃ current, transitionValidate yq st target a = .ok current ∧
        transitionGateCheck yq target a = .ok () ∧ a.commits = true ∧
          st' = st.moveTo (if a.rereadable then current else .other "") target actor := by
  unfold transitionExecute
  cases hvalid : transitionValidate yq st target a with
  | error code => simp [bind, Except.bind]
  | ok current =>
    cases hgate : transitionGateCheck yq target a with
    | error code => simp [bind, Except.bind]
    | ok _ =>
      by_cases hcommits : a.commits = true
      · simp only [bind, Except.bind, hcommits, if_true, Except.ok.injEq]
        constructor
        · intro h
          exact ⟨current, rfl, trivial, trivial, h.symm⟩
        · rintro ⟨_, rfl, -, -, h⟩
          exact h.symm
      · simp [bind, Except.bind, hcommits]

theorem transitionRollback_eq_ok {yq : Bool} {st st' : Lifecycle} {target : Phase}
    {actor rationale : String} {a : TransitionAnswers}
    (h : transitionRollback yq st target actor rationale a = .ok st') :
    ∃ current, st.currentPhase = some current ∧ target ∈ allowedRollback yq current ∧
      st' = st.moveTo current target actor := by
  unfold transitionRollback at h
  split at h
  · cases h
  · split at h
    · cases h
    · rename_i current hread
      split_ifs at h with hback hcommits
      split_ifs at hread
      exact ⟨current, hread, hback, (Except.ok.inj h).symm⟩

theorem transitionRollback_ok {yq : Bool} {st st' : Lifecycle} {target : Phase}
    {actor rationale : String} {a : TransitionAnswers}
    (h : transitionRollback yq st target actor rationale a = .ok st') :
    ∃ current, st' = st.moveTo current target actor := by
  obtain ⟨current, -, -, heq⟩ := transitionRollback_eq_ok h
  exact ⟨current, heq⟩

theorem planInProgress_not_next (yq : Bool) :
    Phase.planInProgress ∉ allowedNext yq .buildInProgress := by
  cases yq <;> decide

end SpineFormal.Orchestrator
