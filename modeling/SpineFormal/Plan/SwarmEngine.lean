import SpineFormal.Base.KeyedTable
import SpineFormal.Base.StateGraph
import SpineFormal.Plan.Synthesis

/-!
# The technical review swarm

`plan/swarm/swarm_engine.py` asks a roster of scouts and has a document made of what they answer.
The steps run as a LangGraph graph when the package is there and one after the other when it is
not. `plan/runtime/architect_swarm_runner.py` makes a result of the state that comes out.
-/

namespace SpineFormal.Plan.Swarm

set_option autoImplicit false

/-! ## The roster -/

def allRoles : List ScoutRole := [.researcher, .engineer, .datawright, .operator, .qa]

/-- `ScoutRole(name)`; `none` is the `ValueError`. -/
def ScoutRole.ofValue (name : Text) : Option ScoutRole :=
  allRoles.find? fun r => r.value.toList == name

theorem ScoutRole.ofValue_value (r : ScoutRole) : ScoutRole.ofValue r.value.toList = some r := by
  cases r <;> decide

/-- A mapping under `project_types`. -/
structure ProjectEntry where
  swarmOverride : Option (List Text)
  intakeTemplate : Option Text

/-- `{}` is false. -/
def ProjectEntry.isEmpty (e : ProjectEntry) : Bool := e.swarmOverride.isNone && e.intakeTemplate.isNone

/-- `project_types` of the pipeline file, and nothing when there is no file. -/
abbrev Pipeline := List (Text × ProjectEntry)

/-- `_BASE_FB`. -/
def baseFallback : List (Text × List ScoutRole) :=
  [("web-app".toList, [.researcher, .engineer, .operator, .qa]),
    ("internal-tool".toList, [.researcher, .engineer, .qa]),
    ("data-pipeline".toList, [.researcher, .engineer, .datawright, .operator]),
    ("mobile".toList, [.researcher, .engineer, .qa, .operator]),
    ("api-service".toList, [.researcher, .engineer, .qa, .operator]),
    ("cli-tool".toList, [.researcher, .engineer, .qa]),
    ("custom".toList, [.researcher, .engineer, .qa])]

/-- `key.replace(a, b)` of single characters. -/
def replaceChar (a b : Char) (key : Text) : Text := key.map fun c => if c = a then b else c

/-- `_FALLBACK_COMPOSITION`. -/
def fallbackComposition : List (Text × List ScoutRole) :=
  baseFallback ++ baseFallback.map fun kv => (replaceChar '-' '_' kv.1, kv.2)

section
variable (lower : Text → Text)

/-- `_normalize`. -/
def normalize (roles : List Text) : List ScoutRole :=
  roles.filterMap fun r => ScoutRole.ofValue (lower r)

/-- `project_types.get(key) or project_types.get(dashed)`. -/
def projectEntry (pipeline : Pipeline) (key : Text) : Option ProjectEntry :=
  match pipeline.lookup key with
  | some e => if e.isEmpty then pipeline.lookup (replaceChar '_' '-' key) else some e
  | none => pipeline.lookup (replaceChar '_' '-' key)

def fallbackFor (key : Text) : List ScoutRole :=
  (fallbackComposition.lookup key).getD
    ((fallbackComposition.lookup (replaceChar '_' '-' key)).getD
      [.researcher, .engineer, .qa])

/-- `get_swarm_for`. -/
def getSwarmFor (projectType : Text) (pipeline : Pipeline) (orgOverrides : List (Text × List Text)) :
    List ScoutRole :=
  let key := trimBy pySpace (orDefault projectType "custom".toList)
  match orgOverrides.lookup key with
  | some roles => normalize lower roles
  | none =>
    match (projectEntry pipeline key).bind ProjectEntry.swarmOverride with
    | some (r :: rs) => normalize lower (r :: rs)
    | _ => fallbackFor key

end

/-! ## The state and its nodes -/

structure SwarmState where
  prdPayload : Prd
  projectType : Text
  roster : List Text
  directives : List (Text × Text)
  contributions : List ScoutContribution
  unrun : List Text
  synthesisAttempts : Nat
  trdPayload : Option Trd
  validationErrors : List Text
  lastNode : String

/-- The call of this number; `none` when it raises. -/
abbrev ScoutDispatcher := Nat → ScoutRole → Text → Prd → Option ScoutContribution

/-- What the loop of `node_dispatch_scouts` has collected. -/
structure Dispatched where
  calls : Nat
  contributions : List ScoutContribution
  unrun : List Text
  directives : List (Text × Text)

def directivePath (role : ScoutRole) : Text :=
  "teams/".toList ++ role.value.toList ++ "/directive.md".toList

def dispatchRole (dispatcher : ScoutDispatcher) (scope : Text) (prd : Prd) (d : Dispatched)
    (roleName : Text) : Dispatched :=
  match ScoutRole.ofValue roleName with
  | none => { d with unrun := d.unrun ++ [roleName] }
  | some role =>
    match dispatcher d.calls role scope prd with
    | some c =>
      { d with
        calls := d.calls + 1
        contributions := d.contributions ++ [c]
        directives := put Prod.fst (role.value.toList, directivePath role) d.directives }
    | none => { d with calls := d.calls + 1, unrun := d.unrun ++ [roleName] }

/-- What every scout is asked. -/
def scopeOf (prd : Prd) : Text :=
  orDefault prd.problemStatement "Assess the PRD against your lens.".toList

def pushErr (s : SwarmState) (msg : Text) (node : String) : SwarmState :=
  { s with validationErrors := s.validationErrors ++ [msg], lastNode := node }

/-- What the swarm runs with: lower-casing, the texts of pydantic's errors and the pipeline file. -/
structure Setting where
  lower : Text → Text
  describe : ValidationError → Text
  pipeline : Pipeline
  dispatcher : ScoutDispatcher

variable (cfg : Setting)

def nodeComposeSwarm (s : SwarmState) : SwarmState :=
  { s with
    roster := (getSwarmFor cfg.lower s.projectType cfg.pipeline []).map fun r => r.value.toList
    lastNode := "compose_swarm" }

def nodeDispatchScouts (s : SwarmState) : SwarmState :=
  let d := s.roster.foldl (dispatchRole cfg.dispatcher (scopeOf s.prdPayload) s.prdPayload)
    ⟨0, s.contributions, s.unrun, s.directives⟩
  { s with
    contributions := d.contributions
    unrun := d.unrun
    directives := d.directives
    lastNode := "dispatch_scouts" }

def nodeWaitForScouts (s : SwarmState) : SwarmState := { s with lastNode := "wait_for_scouts" }

/-- `str` of a `SynthesisError`. -/
def synthesisMessage (e : ValidationError) : Text :=
  "TRD validation failed: ".toList ++ cfg.describe e

def nodeSynthesize (s : SwarmState) : Except ValidationError SwarmState :=
  match synthesizeTrd cfg.lower s.prdPayload s.contributions with
  | .error (.validation e) => .error e
  | .error (.synthesis e) =>
    .ok { pushErr s (synthesisMessage cfg e) "synthesize" with
      synthesisAttempts := s.synthesisAttempts + 1 }
  | .ok trd =>
    .ok { s with
      synthesisAttempts := s.synthesisAttempts + 1
      trdPayload := some trd
      validationErrors := []
      lastNode := "synthesize" }

def noTrdProduced : Text := "no TRD produced".toList

def nodeValidateTrd (s : SwarmState) : SwarmState :=
  match s.trdPayload with
  | none => pushErr s noTrdProduced "validate_trd"
  | some trd =>
    match trd.modelValidate cfg.lower with
    | .error e => pushErr s (cfg.describe e) "validate_trd"
    | .ok _ => { s with validationErrors := [], lastNode := "validate_trd" }

/-! ## The runs -/

/-- The two nodes of the loop. -/
def attemptSynthesis (s : SwarmState) : Except ValidationError SwarmState :=
  match nodeSynthesize cfg s with
  | .error e => .error e
  | .ok s' => .ok (nodeValidateTrd cfg s')

/-- `_run_linear`. -/
def runLinear (initial : SwarmState) : Except ValidationError SwarmState :=
  attempts (attemptSynthesis cfg) (fun s => s.validationErrors ≠ []) 2
    (nodeWaitForScouts (nodeDispatchScouts cfg (nodeComposeSwarm cfg initial)))

inductive Node where
  | composeSwarm
  | dispatchScouts
  | waitForScouts
  | synthesize
  | validateTrd

/-- The graph that `_build_langgraph` compiles. -/
def swarmGraph : StateGraph Node SwarmState ValidationError where
  entry := .composeSwarm
  node
    | .composeSwarm, s => .ok (nodeComposeSwarm cfg s)
    | .dispatchScouts, s => .ok (nodeDispatchScouts cfg s)
    | .waitForScouts, s => .ok (nodeWaitForScouts s)
    | .synthesize, s => nodeSynthesize cfg s
    | .validateTrd, s => .ok (nodeValidateTrd cfg s)
  next
    | .composeSwarm, _ => some .dispatchScouts
    | .dispatchScouts, _ => some .waitForScouts
    | .waitForScouts, _ => some .synthesize
    | .synthesize, _ => some .validateTrd
    | .validateTrd, s =>
      if s.validationErrors ≠ [] ∧ s.synthesisAttempts < 2 then some .synthesize else none

/-- A compiled graph, invoked. -/
abbrev Invoke := StateGraph Node SwarmState ValidationError → SwarmState →
  Except ValidationError SwarmState

/-- An invocation follows the graph, for as many steps as LangGraph allows unless told otherwise. -/
def Invoke.Follows (invoke : Invoke) : Prop :=
  ∀ g s r, g.run 25 g.entry s = some r → invoke g s = r

def initialState (prd : Prd) (projectType : Text) : SwarmState where
  prdPayload := prd
  projectType := projectType
  roster := []
  directives := []
  contributions := []
  unrun := []
  synthesisAttempts := 0
  trdPayload := none
  validationErrors := []
  lastNode := "start"

/-- `run_swarm`; `app` is `none` when LangGraph is not there. -/
def runSwarm (app : Option Invoke) (prd : Prd) (projectType : Text) :
    Except ValidationError SwarmState :=
  match app with
  | none => runLinear cfg (initialState prd projectType)
  | some invoke => invoke (swarmGraph cfg) (initialState prd projectType)

structure ArchitectSwarmResult where
  ok : Bool
  trd : Option Trd
  scoutsRun : List Text
  scoutsUnrun : List Text
  validationErrors : List Text
  errorClass : Option String
  errorMessage : Option Text

/-- `swarm_enabled`, of the environment's value. -/
def swarmEnabled (value : Option Text) : Bool :=
  !(["0", "false", "no"].map String.toList).contains (foldKey cfg.lower (value.getD ['1']))

def runnerError (cls : String) (msg : Text) : ArchitectSwarmResult :=
  ⟨false, none, [], [], [], some cls, some msg⟩

/-- The result for a state that the swarm returned. -/
def resultOf (state : SwarmState) : Except ValidationError ArchitectSwarmResult :=
  let run := state.contributions.map fun c : ScoutContribution => c.scoutRole.value.toList
  match state.trdPayload with
  | none =>
    .ok ⟨false, none, run, state.unrun, state.validationErrors, some "synthesis_failed",
      some (joinWith "; ".toList
        (if state.validationErrors = [] then [noTrdProduced] else state.validationErrors))⟩
  | some payload =>
    match payload.modelValidate cfg.lower with
    | .error e => .error e
    | .ok trd => .ok ⟨true, some trd, run, state.unrun, state.validationErrors, none, none⟩

/-- `run_architect_swarm`. -/
def runArchitectSwarm (app : Option Invoke) (env : Option Text) (prd : Prd) (projectType : Text) :
    Except ValidationError ArchitectSwarmResult :=
  if swarmEnabled cfg env then
    match runSwarm cfg app prd projectType with
    | .error e => .ok (runnerError "ValidationError" ((cfg.describe e).take 500))
    | .ok state => resultOf cfg state
  else .ok (runnerError "swarm_disabled" "SPINE_ARCHITECT_SWARM=0".toList)

/-! ## The scouts that answer -/

/-- The roles in order, each with what its call returned. -/
def replies (dispatcher : ScoutDispatcher) (scope : Text) (prd : Prd) :
    Nat → List ScoutRole → List (ScoutRole × Option ScoutContribution)
  | _, [] => []
  | n, r :: rs => (r, dispatcher n r scope prd) :: replies dispatcher scope prd (n + 1) rs

/-- The replies to a review of this product. -/
def replyRow (prd : Prd) (projectType : Text) : List (ScoutRole × Option ScoutContribution) :=
  replies cfg.dispatcher (scopeOf prd) prd 0 (getSwarmFor cfg.lower projectType cfg.pipeline [])

def answered (row : List (ScoutRole × Option ScoutContribution)) : List ScoutContribution :=
  row.filterMap Prod.snd

def silent (row : List (ScoutRole × Option ScoutContribution)) : List Text :=
  (row.filter fun r => r.2.isNone).map fun r => r.1.value.toList

variable {cfg}

theorem dispatchRole_value (dispatcher : ScoutDispatcher) (scope : Text) (prd : Prd)
    (d : Dispatched) (r : ScoutRole) :
    let d' := dispatchRole dispatcher scope prd d r.value.toList
    d'.calls = d.calls + 1 ∧
    d'.contributions = d.contributions ++ answered [(r, dispatcher d.calls r scope prd)] ∧
    d'.unrun = d.unrun ++ silent [(r, dispatcher d.calls r scope prd)] := by
  dsimp only
  rw [dispatchRole, ScoutRole.ofValue_value]
  dsimp only
  cases dispatcher d.calls r scope prd with
  | none => exact ⟨rfl, (List.append_nil _).symm, rfl⟩
  | some c => exact ⟨rfl, rfl, (List.append_nil _).symm⟩

theorem dispatch_roster (dispatcher : ScoutDispatcher) (scope : Text) (prd : Prd)
    (roles : List ScoutRole) (d : Dispatched) :
    let d' := (roles.map fun r => r.value.toList).foldl (dispatchRole dispatcher scope prd) d
    d'.contributions = d.contributions ++ answered (replies dispatcher scope prd d.calls roles) ∧
    d'.unrun = d.unrun ++ silent (replies dispatcher scope prd d.calls roles) := by
  induction roles generalizing d with
  | nil => exact ⟨(List.append_nil _).symm, (List.append_nil _).symm⟩
  | cons r roles ih =>
    obtain ⟨hcalls, hcontributions, hunrun⟩ := dispatchRole_value dispatcher scope prd d r
    obtain ⟨ih₁, ih₂⟩ := ih (dispatchRole dispatcher scope prd d r.value.toList)
    rw [hcalls, hcontributions, List.append_assoc, answered, answered, ← List.filterMap_append] at ih₁
    rw [hcalls, hunrun, List.append_assoc, silent, silent, ← List.map_append,
      ← List.filter_append] at ih₂
    exact ⟨ih₁, ih₂⟩

/-! ## One attempt -/

theorem attempt_raises {s : SwarmState} {e : ValidationError}
    (h : synthesizeTrd cfg.lower s.prdPayload s.contributions = .error (.validation e)) :
    attemptSynthesis cfg s = .error e := by
  rw [attemptSynthesis, nodeSynthesize, h]

theorem attempt_fails {s : SwarmState} {e : ValidationError}
    (h : synthesizeTrd cfg.lower s.prdPayload s.contributions = .error (.synthesis e))
    (htrd : s.trdPayload = none) :
    attemptSynthesis cfg s = .ok { s with
      validationErrors := s.validationErrors ++ [synthesisMessage cfg e] ++ [noTrdProduced]
      synthesisAttempts := s.synthesisAttempts + 1
      lastNode := "validate_trd" } := by
  rw [attemptSynthesis, nodeSynthesize, h]
  dsimp only
  rw [nodeValidateTrd]
  simp only [pushErr, htrd]

theorem attempt_succeeds {s : SwarmState} {trd : Trd}
    (h : synthesizeTrd cfg.lower s.prdPayload s.contributions = .ok trd) :
    attemptSynthesis cfg s = .ok { s with
      validationErrors := []
      synthesisAttempts := s.synthesisAttempts + 1
      trdPayload := some trd
      lastNode := "validate_trd" } := by
  rw [attemptSynthesis, nodeSynthesize, h]
  dsimp only
  rw [nodeValidateTrd]
  dsimp only
  rw [modelValidate_again h]

/-! ## The graph -/

theorem nodeValidateTrd_attempts (s : SwarmState) :
    (nodeValidateTrd cfg s).synthesisAttempts = s.synthesisAttempts := by
  rw [nodeValidateTrd]
  split
  · rfl
  · split <;> rfl

theorem nodeSynthesize_attempts {s s' : SwarmState} (h : nodeSynthesize cfg s = .ok s') :
    s'.synthesisAttempts = s.synthesisAttempts + 1 := by
  rw [nodeSynthesize] at h
  split at h
  · cases h
  · obtain rfl := Except.ok.inj h
    rfl
  · obtain rfl := Except.ok.inj h
    rfl

theorem attempt_attempts {s s' : SwarmState} (h : attemptSynthesis cfg s = .ok s') :
    s'.synthesisAttempts = s.synthesisAttempts + 1 := by
  rw [attemptSynthesis] at h
  split at h
  · cases h
  · rename_i s₁ h₁
    obtain rfl := Except.ok.inj h
    exact (nodeValidateTrd_attempts s₁).trans (nodeSynthesize_attempts h₁)

theorem both_nodes (s : SwarmState) :
    (swarmGraph cfg).both .synthesize .validateTrd s = attemptSynthesis cfg s := by
  cases h : nodeSynthesize cfg s with
  | error e =>
    rw [attemptSynthesis, h]
    exact StateGraph.both_error h
  | ok s' =>
    rw [attemptSynthesis, h]
    exact StateGraph.both_ok h

/-- The graph and the loop are one, from every state in which nothing was attempted. -/
theorem invoke_eq_runLinear {invoke : Invoke} (hinvoke : invoke.Follows) {initial : SwarmState}
    (hnew : initial.synthesisAttempts = 0) :
    invoke (swarmGraph cfg) initial = runLinear cfg initial := by
  apply hinvoke
  refine Eq.trans ?_ (congrArg some (congrArg (fun f => attempts f _ 2 _) (funext both_nodes)))
  exact StateGraph.run_cycle SwarmState.synthesisAttempts 2 (fun _ => rfl) (fun _ => rfl)
    (fun s₀ s₂ h => attempt_attempts ((both_nodes s₀).symm.trans h)) 1 22 _
    (congrArg (· + 2) hnew) (by omega)

theorem runSwarm_eq {app : Option Invoke} (happ : ∀ invoke ∈ app, Invoke.Follows invoke) (prd : Prd)
    (projectType : Text) :
    runSwarm cfg app prd projectType = runLinear cfg (initialState prd projectType) := by
  cases app with
  | none => rfl
  | some invoke => exact invoke_eq_runLinear (happ invoke rfl) rfl

/-! ## What comes out of a review -/

variable (cfg) in
/-- The state before the first attempt. -/
def asked (prd : Prd) (projectType : Text) : SwarmState :=
  nodeWaitForScouts (nodeDispatchScouts cfg (nodeComposeSwarm cfg (initialState prd projectType)))

variable (cfg) in
theorem asked_collected (prd : Prd) (projectType : Text) :
    (asked cfg prd projectType).contributions = answered (replyRow cfg prd projectType) ∧
    (asked cfg prd projectType).unrun = silent (replyRow cfg prd projectType) :=
  dispatch_roster cfg.dispatcher (scopeOf prd) prd
    (getSwarmFor cfg.lower projectType cfg.pipeline []) ⟨0, [], [], []⟩

theorem synthesizeTrd_cases (hcolon : ∀ s, ':' ∈ s → ':' ∈ cfg.lower s) {prd : Prd}
    (hprd : prd.Valid cfg.lower) (cs : List ScoutContribution) :
    (ArchitectureSays cfg.lower cs → RestSays cfg.lower cs →
      ∃ trd, synthesizeTrd cfg.lower prd cs = .ok trd) ∧
    (ArchitectureSays cfg.lower cs → ¬ RestSays cfg.lower cs →
      ∃ e, synthesizeTrd cfg.lower prd cs = .error (.synthesis e)) ∧
    (¬ ArchitectureSays cfg.lower cs →
      ∃ e, synthesizeTrd cfg.lower prd cs = .error (.validation e)) := by
  unfold synthesizeTrd
  cases harch : synthesizeArchitecture cfg.lower cs with
  | error e =>
    have hnot : ¬ ArchitectureSays cfg.lower cs := by
      intro h
      obtain ⟨a, ha⟩ := (synthesizeArchitecture_ok_iff hcolon cs).mpr h
      rw [harch] at ha
      cases ha
    exact ⟨fun h => absurd h hnot, fun h => absurd h hnot, fun _ => ⟨e, rfl⟩⟩
  | ok a =>
    have hsays : ArchitectureSays cfg.lower cs :=
      (synthesizeArchitecture_ok_iff hcolon cs).mp ⟨a, harch⟩
    refine ⟨fun _ h => ?_, fun _ h => ?_, fun h => absurd hsays h⟩
    · obtain ⟨trd, htrd⟩ := (synthesizeRest_ok_iff hcolon hprd cs a).mpr h
      dsimp only
      rw [htrd]
      exact ⟨trd, rfl⟩
    · dsimp only
      cases hrest : synthesizeRest cfg.lower prd cs a with
      | error e => exact ⟨e, rfl⟩
      | ok trd => exact absurd ((synthesizeRest_ok_iff hcolon hprd cs a).mp ⟨trd, hrest⟩) h

def rolesOf (cs : List ScoutContribution) : List Text :=
  cs.map fun c => c.scoutRole.value.toList

section
variable {app : Option Invoke} {env : Option Text} {prd : Prd} {projectType : Text}

theorem run_enabled (happ : ∀ invoke ∈ app, Invoke.Follows invoke)
    (henabled : swarmEnabled cfg env = true) :
    runArchitectSwarm cfg app env prd projectType =
      match attempts (attemptSynthesis cfg) (fun s => s.validationErrors ≠ []) 2
          (asked cfg prd projectType) with
      | .error e => .ok (runnerError "ValidationError" ((cfg.describe e).take 500))
      | .ok state => resultOf cfg state := by
  rw [runArchitectSwarm, if_pos henabled, runSwarm_eq happ]
  rfl

variable (cfg app env prd projectType) in
/-- A review ends in one of three ways, with LangGraph or without it. A document comes out when the
scouts that answered say something wherever the document needs it. When a choice, a risk or a
question says nothing, the second attempt fails as the first one did. When a component says nothing,
nothing is kept of what the scouts did. -/
theorem architectSwarm_outcome (hcolon : ∀ s, ':' ∈ s → ':' ∈ cfg.lower s)
    (hprd : prd.Valid cfg.lower) (happ : ∀ invoke ∈ app, Invoke.Follows invoke)
    (henabled : swarmEnabled cfg env = true) :
    let row := replyRow cfg prd projectType
    let archOk := ArchitectureSays cfg.lower (answered row)
    let restOk := RestSays cfg.lower (answered row)
    let result := runArchitectSwarm cfg app env prd projectType
    (archOk → restOk → ∃ trd, synthesizeTrd cfg.lower prd (answered row) = .ok trd ∧
      result = .ok ⟨true, some trd, rolesOf (answered row), silent row, [], none, none⟩) ∧
    (archOk → ¬ restOk → ∃ e, synthesizeTrd cfg.lower prd (answered row) = .error (.synthesis e) ∧
      let m := synthesisMessage cfg e
      let errors := [m, noTrdProduced, m, noTrdProduced]
      result = .ok ⟨false, none, rolesOf (answered row), silent row, errors,
        some "synthesis_failed", some (joinWith "; ".toList errors)⟩) ∧
    (¬ archOk → ∃ e, synthesizeTrd cfg.lower prd (answered row) = .error (.validation e) ∧
      result = .ok (runnerError "ValidationError" ((cfg.describe e).take 500))) := by
  intro row archOk restOk result
  obtain ⟨hcontributions, hunrun⟩ := asked_collected cfg prd projectType
  obtain ⟨hok, hfails, hraises⟩ := synthesizeTrd_cases hcolon hprd (answered row)
  refine ⟨fun hs hr => ?_, fun hs hr => ?_, fun hs => ?_⟩
  · obtain ⟨trd, htrd⟩ := hok hs hr
    have hfirst := attempt_succeeds (s := asked cfg prd projectType) (hcontributions ▸ htrd)
    refine ⟨trd, htrd, (run_enabled happ henabled).trans ?_⟩
    rw [attempts_one hfirst fun h => h rfl]
    dsimp only [resultOf]
    rw [modelValidate_again htrd, hcontributions, hunrun]
    rfl
  · obtain ⟨e, he⟩ := hfails hs hr
    have hfirst := attempt_fails (s := asked cfg prd projectType) (hcontributions ▸ he) rfl
    have hagain : [] ++ [synthesisMessage cfg e] ++ [noTrdProduced] ≠ [] := List.cons_ne_nil _ _
    refine ⟨e, he, (run_enabled happ henabled).trans ?_⟩
    rw [attempts_two hfirst hagain (attempt_fails (hcontributions ▸ he) rfl)]
    dsimp only [resultOf]
    rw [hcontributions, hunrun]
    rfl
  · obtain ⟨e, he⟩ := hraises hs
    have hfirst := attempt_raises (s := asked cfg prd projectType) (hcontributions ▸ he)
    refine ⟨e, he, (run_enabled happ henabled).trans ?_⟩
    rw [attempts_error hfirst]

end

/-- A scout whose one finding is a recommendation. -/
def oneFinding : Finding where
  severity := .low
  kind := .recommendation
  fileOrSection := "api".toList
  description := "Split the API.".toList
  recommendation := some "Use a queue.".toList
  description_ne := List.cons_ne_nil _ _

def oneScout : Setting where
  lower := List.map Char.toLower
  describe _ := []
  pipeline := []
  dispatcher _ role _ _ := if role = .engineer then some ⟨role, [oneFinding], [], []⟩ else none

def onePrd : Prd := ⟨"p1".toList, "prd-v1".toList, "Orders are slow.".toList, [], []⟩

theorem architectSwarm_outcome_oneScout :
    ∃ trd, runArchitectSwarm oneScout none none onePrd "cli_tool".toList =
      .ok ⟨true, some trd, ["engineer".toList], ["researcher".toList, "qa".toList], [], none, none⟩ := by
  have hcolon : ∀ s : Text, ':' ∈ s → ':' ∈ oneScout.lower s :=
    fun s h => List.mem_map.mpr ⟨':', h, by decide⟩
  have hrow : answered (replyRow oneScout onePrd "cli_tool".toList) = [⟨.engineer, [oneFinding], [], []⟩] := rfl
  obtain ⟨hok, -⟩ := architectSwarm_outcome oneScout none none onePrd "cli_tool".toList hcolon
    ⟨by decide⟩ (fun _ h => nomatch h) (by decide)
  rw [hrow] at hok
  obtain ⟨trd, -, htrd⟩ := hok
    (fun f hf => by
      obtain rfl := List.mem_singleton.mp hf.mem
      exact ⟨by decide, by decide⟩)
    ⟨List.forall_mem_singleton.mpr fun _ => ⟨by decide, by decide, by decide⟩,
      fun r hr => absurd hr.mem List.not_mem_nil, fun q hq => absurd hq.mem List.not_mem_nil⟩
  exact ⟨trd, htrd⟩

end SpineFormal.Plan.Swarm
