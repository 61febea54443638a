import SpineFormal.Hub.GatePolicy

/-!
# The fix loop of a blocked review

A review that blocks a project sends the engineer back with its findings, by the
scheduler of `schedule_auto_engineer_remediate` and by the acks of the cards that
report it. Roles, post-ack hooks, recovery requests, their workers and the pipeline
runner are tasks on the Hub's event loop; each step runs one of them to its next
wait. No human acts: cards are acked by the runner alone.
-/

namespace SpineFormal.Hub.FixLoop

open Recovery

set_option autoImplicit false

inductive HubRole where
  | planner
  | architect
  | conductor
  | engineer
  | auditor
  | devops
  | qa
  | releaseManager
  | devopsRelease
  deriving DecidableEq

inductive RoleDirective where
  | produceRoadmap
  | produceTrd
  | produceSprintPlan
  | produceCode
  | codeReview
  | installAndSmoke
  | remediateFromReview
  | produceTestPlan
  | produceReleaseGate
  | deployLocal
  | produceFeature
  deriving DecidableEq

def kindRoleDispatch : CardKind → Option (HubRole × RoleDirective)
  | .prdApproval => some (.planner, .produceRoadmap)
  | .roadmapApproval => some (.architect, .produceTrd)
  | .trdApproval => some (.conductor, .produceSprintPlan)
  | .sprintPlanApproval => some (.engineer, .produceCode)
  | .codeApproval => some (.auditor, .codeReview)
  | .codeReviewPass => some (.devops, .installAndSmoke)
  | .codeReviewBlocked => some (.engineer, .remediateFromReview)
  | .securityReviewBlocked => some (.engineer, .remediateFromReview)
  | .devopsApproval => some (.qa, .produceTestPlan)
  | .qaApproval => some (.releaseManager, .produceReleaseGate)
  | .localDeployPrompt => some (.devopsRelease, .deployLocal)
  | .featureRequest => some (.engineer, .produceFeature)
  | _ => none

/-- A dispatch of this kind sends the engineer to remediate. -/
def remediates (kind : CardKind) : Bool :=
  decide (kindRoleDispatch kind = some (.engineer, .remediateFromReview))

/-- `{role}_approval`. -/
def roleApproval : HubRole → CardKind
  | .planner => .other "planner_approval"
  | .architect => .other "architect_approval"
  | .conductor => .other "conductor_approval"
  | .engineer => .other "engineer_approval"
  | .auditor => .auditorApproval
  | .devops => .devopsApproval
  | .qa => .qaApproval
  | .releaseManager => .other "release_manager_approval"
  | .devopsRelease => .other "devops_release_approval"

/-- `_ROLE_OUTPUT_TO_DISPATCH_KIND`. -/
def ackKind : CardKind → CardKind
  | .other "planner_approval" => .prdApproval
  | .other "architect_approval" => .roadmapApproval
  | .other "conductor_approval" => .trdApproval
  | .other "engineer_approval" => .sprintPlanApproval
  | .other "verify_approval" => .codeApproval
  | .other "devops_release_approval" => .localDeployPrompt
  | .other "release_manager_approval" => .qaApproval
  | .auditorApproval => .qaApproval
  | kind => kind

/-- The role that `on_decision_acked` dispatches for a kind, with the card it asks for. -/
def ackRole : CardKind → Option (CardKind × Option CardKind)
  | .prdApproval => some (.prdApproval, some .roadmapApproval)
  | .roadmapApproval => some (.roadmapApproval, some .trdApproval)
  | .trdApproval => some (.trdApproval, some .sprintPlanApproval)
  | .sprintPlanApproval => some (.sprintPlanApproval, some .codeApproval)
  | .codeApproval => some (.codeApproval, none)
  | .codeReviewPass => some (.codeReviewPass, some .devopsApproval)
  | .codeReviewBlocked => some (.codeReviewBlocked, some .codeApproval)
  | .securityReviewBlocked => some (.securityReviewBlocked, some .codeApproval)
  | .devopsApproval => some (.devopsApproval, some .qaApproval)
  | .qaApproval => some (.qaApproval, some .releaseGateApproval)
  | .localDeployPrompt => some (.localDeployPrompt, none)
  | _ => none

/-- The cards that it enqueues without a role. -/
def ackCards : CardKind → List CardKind
  | .hostDeployPrompt => [.hostDeployInstructions]
  | .releaseGateApproval => [.localDeployPrompt, .hostDeployPrompt, .projectComplete]
  | _ => []

def retryActionForDispatchKind : CardKind → Option RecoveryAction
  | .sprintPlanApproval => some .retryEngineer
  | .featureRequest => some .retryFeature
  | .codeApproval => some .retryCodeReview
  | .codeReviewBlocked => some .retryEngineerRemediate
  | .securityReviewBlocked => some .retryEngineerRemediate
  | .codeReviewPass => some .retryDevops
  | .devopsApproval => some .retryQa
  | .prdApproval => some .retryPlanner
  | .roadmapApproval => some .retryArchitect
  | .trdApproval => some .retryConductor
  | _ => none

/-- The `approval_card_kind` of `_dispatch_params`. -/
def approvalCardKind : RecoveryAction → Option CardKind
  | .retryPlanner => some .roadmapApproval
  | .retryArchitect => some .trdApproval
  | .retryConductor => some .sprintPlanApproval
  | .retryEngineer => some .codeApproval
  | .retryEngineerRemediate => some .codeApproval
  | .retryDevops => some .devopsApproval
  | .retryQa => some .qaApproval
  | .retryFeature => some .codeApproval
  | _ => none

/-- The kinds that the phase watcher dispatches. -/
def watchKinds : List CardKind := [
  .prdApproval, .roadmapApproval, .trdApproval, .sprintPlanApproval, .codeApproval,
  .devopsApproval, .auditorApproval, .other "release_approval", .operateKickoff, .featureRequest]

structure Card where
  id : Nat
  kind : CardKind
  retryAction : Option RecoveryAction := none

/-- The row of the project, in what the loop reads: the metadata of the fix loop, the phase, and
how far the project has come. -/
structure ProjectRow where
  metadata : Metadata := {}
  operate : Bool := false
  intakeDone : Bool := true
  operateStarted : Bool := false
  paused : Bool := false
  featurePending : Bool := false
  featureActive : Bool := false
  installOk : Bool := true
  gates : GateSettings := {}

structure LoopStore where
  row : ProjectRow
  now : Nat := 0
  /-- The pending cards of the project. -/
  cards : List Card := []
  nextCard : Nat := 0
  /-- The project is in `_AUTO_REMEDIATE_SCHEDULED`. -/
  scheduled : Bool := false
  /-- How often the engineer was sent to remediate, and how many of these were counted. -/
  dispatched : Nat := 0
  counted : Nat := 0

/-- What the role answers: its `result_kind`, and whether the text of its artifact is not blank. -/
inductive RoleOutcome where
  | failed
  | ok (resultKind : Option CardKind) (text : Bool)

structure LoopAnswer extends Answer where
  role : RoleOutcome := .failed

/-- Where a call of `_orchestrate_hub_role` stands. -/
inductive RoleStage where
  | dispatching (kind : CardKind) (card : Option CardKind)
  | failing (kind : CardKind)
  | counting
  | incrementing (iteration : Nat)
  | reloading
  | recording (blocked text : Bool)
  | judging
  | finished (handled : Bool)
  | raised

inductive WorkerStage where
  | starting
  | scanning (stage : RoleStage)
  | reloading
  | working (stage : RoleStage)
  | clearing
  | done

inductive RunnerStage where
  | listing
  | listed (row : ProjectRow)
  | intaking
  | resetting (row : ProjectRow) (cards : List Card) (stage : DispatchStage)
  | reviewing (row : ProjectRow) (cards : List Card) (stage : DispatchStage)
  | featuring (row : ProjectRow) (cards : List Card) (stage : DispatchStage)
  | acking (row : ProjectRow) (cards : List Card)
  | pausing
  | done

inductive Task where
  /-- `on_decision_acked`, before it has loaded the project or while it completes a feature. -/
  | hook (kind : CardKind)
  | completing
  | role (stage : RoleStage)
  | request (action : RecoveryAction) (actor : String) (autoLoop : Bool) (stage : DispatchStage)
  | scheduler (attempt : Nat) (stage : DispatchStage)
  | sleeping (attempt : Nat)
  | worker (flag : InFlight) (autoLoop : Bool) (md : Metadata) (stage : WorkerStage)
  | runner (stage : RunnerStage)
  | status (stage : ClearStage)
  | done

namespace LoopStore
variable (st : LoopStore)

def withMetadata (md : Metadata) : LoopStore := { st with row := { st.row with metadata := md } }

def enqueue (kind : CardKind) (retryAction : Option RecoveryAction) : LoopStore :=
  { st with cards := st.cards ++ [⟨st.nextCard, kind, retryAction⟩], nextCard := st.nextCard + 1 }

def enqueueAll (kinds : List CardKind) : LoopStore :=
  kinds.foldl (fun st kind => st.enqueue kind none) st

/-- A call that found no role for the kind leaves a card. -/
def gap (handled : Bool) : LoopStore := if handled then st else st.enqueue .orchestratorGap none

end LoopStore

/-- `_orchestrate_hub_role` up to the dispatch. -/
def startRole (st : LoopStore) (kind : CardKind) (card : Option CardKind) :
    LoopStore × RoleStage :=
  match kindRoleDispatch kind with
  | none => (st, .finished false)
  | some _ =>
    (if remediates kind then { st with dispatched := st.dispatched + 1 } else st,
      .dispatching kind card)

/-- What becomes of a role that has finished its work. -/
def roleResult (st : LoopStore) (kind : CardKind) (card result : Option CardKind) (text : Bool) :
    LoopStore × RoleStage :=
  if result.or card = some (.other "deploy") ∨ kind = .localDeployPrompt then (st, .finished true)
  else
    match (card.or result).or ((kindRoleDispatch kind).map fun spec => roleApproval spec.1) with
    | some .codeApproval =>
      if kind = .codeReviewBlocked then (st, .counting)
      else (st.enqueue .codeApproval none, .finished true)
    | some .codeReviewPass => (st, .recording false text)
    | some .codeReviewBlocked => (st, .recording true text)
    | some next => (st.enqueue next none, .finished true)
    | none => (st, .finished true)

/-- `schedule_auto_engineer_remediate`: one scheduler at a time. -/
def schedule (st : LoopStore) : LoopStore × List Task :=
  if st.scheduled then (st, [])
  else ({ st with scheduled := true }, [.scheduler 1 .loading])

/-- The next piece of `_orchestrate_hub_role`, with the task that it leaves behind. -/
def runRole (st : LoopStore) (stage : RoleStage) (a : LoopAnswer) :
    LoopStore × RoleStage × List Task :=
  if a.ok then
    match stage with
    | .dispatching kind card =>
      match a.role with
      | .failed => (st, .failing kind, [])
      | .ok result text =>
        let next := roleResult st kind card result text
        (next.1, next.2, [])
    | .failing kind =>
      (st.enqueue .roleFailure (retryActionForDispatchKind kind), .finished true, [])
    | .counting =>
      (st, if a.found then .incrementing (st.row.metadata.codeFixIteration + 1) else .reloading, [])
    | .incrementing n =>
      ({ st with row := { st.row with metadata := { st.row.metadata with codeFixIteration := n } },
                 counted := st.counted + 1 }, .reloading, [])
    | .reloading =>
      if a.found then
        let next := startRole st .codeApproval none
        (next.1, next.2, [])
      else (st, .finished true, [])
    | .recording blocked text =>
      let st := st.withMetadata
        { st.row.metadata with codeReviewBlocked := blocked, codeReviewMd := text }
      if blocked then (st, .judging, []) else (st.enqueue .codeReviewPass none, .finished true, [])
    | .judging =>
      if a.found ∧ ¬ st.row.metadata.fixLoopExhausted then
        let next := schedule st
        (next.1.enqueue .securityReviewBlocked none, .finished true, next.2)
      else (st.enqueue .codeReviewBlocked none, .finished true, [])
    | .finished handled => (st, .finished handled, [])
    | .raised => (st, .raised, [])
  else (st, match stage with | .finished handled => .finished handled | _ => .raised, [])

/-- A recovery request; the worker that it starts is a task of its own. -/
def runRequest (action : RecoveryAction) (actor : String) (autoLoop : Bool) (st : LoopStore)
    (stage : DispatchStage) (a : LoopAnswer) : LoopStore × DispatchStage × List Task :=
  match stage with
  | .spawning flag md =>
    if a.ok then (st, .finished .started, [.worker flag autoLoop md .starting])
    else (st, .finished .raised, [])
  | stage =>
    let next := runDispatch action actor autoLoop ⟨st.row.metadata, st.now⟩ stage
      { a.toAnswer with pending := st.cards.length }
    (st.withMetadata next.1.metadata, next.2, [])

/-- A role that is over leaves a gap card if it was not handled. -/
def roleTask (st : LoopStore) : RoleStage → LoopStore × Task
  | .finished handled => (st.gap handled, .done)
  | .raised => (st, .done)
  | stage => (st, .role stage)

/-- The worker's own role. -/
def launch (st : LoopStore) (flag : InFlight) : LoopStore × WorkerStage :=
  let next := startRole st flag.dispatchKind (approvalCardKind flag.action)
  match next.2 with
  | .finished handled => (next.1.gap handled, .clearing)
  | stage => (next.1, .working stage)

/-- `_run_recovery_orchestration`; a worker that finds no review in the metadata has one made. -/
def runWorker (flag : InFlight) (md : Metadata) (st : LoopStore) (stage : WorkerStage)
    (a : LoopAnswer) : LoopStore × WorkerStage × List Task :=
  match stage with
  | .starting =>
    if remediates flag.dispatchKind && !md.codeReviewMd then
      let next := startRole st .codeApproval none
      (next.1, .scanning next.2, [])
    else
      let next := launch st flag
      (next.1, next.2, [])
  | .scanning role =>
    let next := runRole st role a
    match next.2.1 with
    | .finished _ => (next.1, .reloading, next.2.2)
    | .raised => (next.1, .clearing, next.2.2)
    | role => (next.1, .scanning role, next.2.2)
  | .reloading =>
    if a.ok then
      if (if a.found then st.row.metadata else md).codeReviewBlocked then
        let next := launch st flag
        (next.1, next.2, [])
      else (st, .clearing, [])
    else (st, .clearing, [])
  | .working role =>
    let next := runRole st role a
    match next.2.1 with
    | .finished handled => (next.1.gap handled, .clearing, next.2.2)
    | .raised => (next.1, .clearing, next.2.2)
    | role => (next.1, .working role, next.2.2)
  | .clearing =>
    (if a.ok then st.withMetadata { st.row.metadata with inFlight := none } else st, .done, [])
  | .done => (st, .done, [])

/-- The hook of a card that the runner has acked. -/
def ackTasks (card : Card) : List Task :=
  match ackKind card.kind with
  | .roleFailure =>
    (card.retryAction.map fun action => .request action "pipeline_runner" false .loading).toList
  | .intakeBriefing => []
  | .orchestratorGap => []
  | kind => [.hook kind]

/-- `on_decision_acked` once it has the project. -/
def runHook (st : LoopStore) (kind : CardKind) : LoopStore × Task :=
  if kind = .devopsApproval ∧ st.row.operate ∧ st.row.featureActive ∧ st.row.installOk then
    (st, .completing)
  else
    match ackRole kind with
    | some (kind, card) =>
      let next := startRole st kind card
      roleTask next.1 next.2
    | none => (st.enqueueAll (ackCards kind), .done)

/-- `_maybe_dispatch_feature_request`, else the cards. -/
def featureOrCards (row : ProjectRow) (cards : List Card) : RunnerStage :=
  if row.operate ∧ row.featurePending ∧ ¬ row.metadata.codeReviewBlocked ∧
      row.metadata.inFlight.isNone ∧ cards.isEmpty then .featuring row cards .loading
  else .acking row cards

/-- `_process_project`: intake, then the unsticking of a blocked review, then the rest. -/
def processProject (row : ProjectRow) (cards : List Card) : RunnerStage :=
  if ¬ row.intakeDone then .intaking
  else if row.operate ∧ row.metadata.codeReviewBlocked ∧ row.metadata.inFlight.isNone ∧
      cards.isEmpty ∧ (row.metadata.fixLoopExhausted ∨ row.metadata.codeFixIteration ≠ 0) then
    .resetting row cards .loading
  else featureOrCards row cards

/-- One card: a failed role pauses the project unless it operates already, and the policy decides
about the others. -/
def runCard (st : LoopStore) (row : ProjectRow) (card : Card) (cards : List Card) (a : LoopAnswer) :
    LoopStore × RunnerStage × List Task :=
  let acked : LoopStore × RunnerStage × List Task :=
    if a.ok then
      ({ st with cards := st.cards.filter fun c => c.id ≠ card.id }, .acking row cards,
        ackTasks card)
    else (st, .acking row cards, [])
  if card.kind = .orchestratorGap ∨ card.kind = .roleFailure then
    if card.kind = .roleFailure ∧ row.operateStarted then acked else (st, .pausing, [])
  else if canAutoAck card.kind row.gates then acked
  else (st, .acking row cards, [])

def runRunner (st : LoopStore) (stage : RunnerStage) (a : LoopAnswer) :
    LoopStore × RunnerStage × List Task :=
  match stage with
  | .listing =>
    (st, if a.ok ∧ st.row.gates.autonomous ∧ ¬ st.row.paused then .listed st.row else .done, [])
  | .listed row => (st, if a.ok then processProject row st.cards else .done, [])
  | .intaking => (st, if a.ok then .done else .pausing, [])
  | .resetting row cards request =>
    let next := runRequest .resetFixLoop "pipeline_runner" true st request a
    match next.2.1 with
    | .finished .raised => (next.1, .done, next.2.2)
    | .finished _ => (next.1, .reviewing row cards .loading, next.2.2)
    | request => (next.1, .resetting row cards request, next.2.2)
  | .reviewing row cards request =>
    let next := runRequest .retryCodeReview "pipeline_runner" true st request a
    match next.2.1 with
    | .finished .raised => (next.1, .done, next.2.2)
    | .finished .started => (next.1, .done, next.2.2)
    | .finished _ => (next.1, featureOrCards row cards, next.2.2)
    | request => (next.1, .reviewing row cards request, next.2.2)
  | .featuring row cards request =>
    let next := runRequest .retryFeature "pipeline_runner" true st request a
    match next.2.1 with
    | .finished .raised => (next.1, .done, next.2.2)
    | .finished .started => (next.1, .done, next.2.2)
    | .finished _ => (next.1, .acking row cards, next.2.2)
    | request => (next.1, .featuring row cards request, next.2.2)
  | .acking _ [] => (st, .done, [])
  | .acking row (card :: cards) => runCard st row card cards a
  | .pausing => (if a.ok then { st with row := { st.row with paused := true } } else st, .done, [])
  | .done => (st, .done, [])

def autoRemediateMaxAttempts : Nat := 12

/-- One piece of a task: the store, what the task is then, and the tasks that it has created. -/
def Task.run (st : LoopStore) (t : Task) (a : LoopAnswer) : LoopStore × Task × List Task :=
  match t with
  | .hook kind =>
    if a.ok ∧ a.found then
      let next := runHook st kind
      (next.1, next.2, [])
    else (st, .done, [])
  | .completing =>
    if a.ok then
      let row := { st.row with
        metadata := { st.row.metadata with codeReviewBlocked := false }, featureActive := false }
      ({ st with row := row },
        if row.featurePending ∧ row.metadata.inFlight.isNone then
          .request .retryFeature "pipeline_runner" true .loading
        else .done, [])
    else (st, .done, [])
  | .role stage =>
    let next := runRole st stage a
    let task := roleTask next.1 next.2.1
    (task.1, task.2, next.2.2)
  | .request action actor autoLoop stage =>
    let next := runRequest action actor autoLoop st stage a
    (next.1, .request action actor autoLoop next.2.1, next.2.2)
  | .scheduler attempt stage =>
    let next := runRequest .retryEngineerRemediate "hub" true st stage a
    match next.2.1 with
    | .finished reply =>
      if reply = .dispatchInFlight ∧ attempt < autoRemediateMaxAttempts then
        (next.1, .sleeping attempt, next.2.2)
      else ({ next.1 with scheduled := false }, .done, next.2.2)
    | stage => (next.1, .scheduler attempt stage, next.2.2)
  | .sleeping attempt => (st, .scheduler (attempt + 1) .loading, [])
  | .worker flag autoLoop md stage =>
    let next := runWorker flag md st stage a
    (next.1, .worker flag autoLoop md next.2.1, next.2.2)
  | .runner stage =>
    let next := runRunner st stage a
    (next.1, .runner next.2.1, next.2.2)
  | .status stage =>
    let next := runClear (fun md => md.inFlight.any fun f => f.stale st.now)
      ⟨st.row.metadata, st.now⟩ stage a.toAnswer
    (st.withMetadata next.1.metadata, .status next.2, [])
  | .done => (st, .done, [])

structure Loop where
  store : LoopStore
  tasks : List Task

inductive LoopEvent where
  | tick
  | advance (task : Nat) (answer : LoopAnswer)
  | clock (now : Nat)
  | status
  /-- Another part of the Hub enqueues a card or writes the project, or the phase watcher sends
  a role. -/
  | card (kind : CardKind)
  | project (row : ProjectRow)
  | watch (kind : CardKind)

def Task.ticking : Task → Bool
  | .runner .done => false
  | .runner _ => true
  | _ => false

def Loop.step (l : Loop) : LoopEvent → Option Loop
  | .tick =>
    if l.tasks.any Task.ticking then none else some ⟨l.store, l.tasks ++ [.runner .listing]⟩
  | .advance i a =>
    l.tasks[i]?.map fun t =>
      ⟨(t.run l.store a).1, l.tasks.set i (t.run l.store a).2.1 ++ (t.run l.store a).2.2⟩
  | .clock now => some ⟨{ l.store with now := now }, l.tasks⟩
  | .status => some ⟨l.store, l.tasks ++ [.status .loading]⟩
  | .card kind =>
    if remediates kind ∨ kind = .roleFailure then none
    else some ⟨l.store.enqueue kind none, l.tasks⟩
  | .project row =>
    some ⟨{ l.store with row := { row with metadata := l.store.row.metadata } }, l.tasks⟩
  | .watch kind =>
    if kind ∈ watchKinds then
      let next := startRole l.store kind none
      let task := roleTask next.1 next.2
      some ⟨task.1, l.tasks ++ [task.2]⟩
    else none

/-- The project with some cards, and nothing under way. -/
def Loop.start (row : ProjectRow) (cards : List Card) (nextCard : Nat) : Loop :=
  ⟨{ row := row, cards := cards, nextCard := nextCard }, []⟩

end SpineFormal.Hub.FixLoop
