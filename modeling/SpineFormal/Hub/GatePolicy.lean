import SpineFormal.Hub.RecoveryDispatch

/-!
# The gate policy of a project

Which decision cards the pipeline runner may ack by itself: a named preset, with
lists of its own in the project's metadata.
-/

namespace SpineFormal.Hub.Recovery

set_option autoImplicit false

def CardKind.text : CardKind → String
  | .intakeBriefing => "intake_briefing"
  | .prdApproval => "prd_approval"
  | .roadmapApproval => "roadmap_approval"
  | .trdApproval => "trd_approval"
  | .sprintPlanApproval => "sprint_plan_approval"
  | .codeApproval => "code_approval"
  | .codeReviewPass => "code_review_pass"
  | .codeReviewBlocked => "code_review_blocked"
  | .securityReviewBlocked => "security_review_blocked"
  | .devopsApproval => "devops_approval"
  | .qaApproval => "qa_approval"
  | .qaExecution => "qa_execution"
  | .auditorApproval => "auditor_approval"
  | .releaseGateApproval => "release_gate_approval"
  | .localDeployPrompt => "local_deploy_prompt"
  | .hostDeployPrompt => "host_deploy_prompt"
  | .hostDeployInstructions => "host_deploy_instructions"
  | .deployStatus => "deploy_status"
  | .operateKickoff => "operate_kickoff"
  | .projectComplete => "project_complete"
  | .featureRequest => "feature_request"
  | .orchestratorGap => "orchestrator_gap"
  | .roleFailure => "role_failure"
  | .masterDailyBriefing => "master_daily_briefing"
  | .other kind => kind

def allAckKinds : List CardKind := [
  .intakeBriefing, .prdApproval, .roadmapApproval, .trdApproval, .sprintPlanApproval,
  .codeApproval, .codeReviewPass, .codeReviewBlocked, .securityReviewBlocked, .devopsApproval,
  .qaApproval, .qaExecution, .auditorApproval, .releaseGateApproval, .localDeployPrompt,
  .hostDeployPrompt, .hostDeployInstructions, .deployStatus, .operateKickoff, .projectComplete]

def neverAuto : List CardKind := [.orchestratorGap, .roleFailure, .masterDailyBriefing]

inductive GatePreset where
  | gateChecked
  | strict
  | fullAuto
  deriving DecidableEq

def GatePreset.auto : GatePreset → List CardKind
  | .gateChecked => []
  | .strict => [
    .intakeBriefing, .prdApproval, .roadmapApproval, .trdApproval, .sprintPlanApproval,
    .codeApproval, .codeReviewPass, .codeReviewBlocked, .securityReviewBlocked, .devopsApproval,
    .qaApproval, .qaExecution, .auditorApproval, .localDeployPrompt, .hostDeployPrompt,
    .hostDeployInstructions, .deployStatus, .operateKickoff]
  | .fullAuto => allAckKinds

def GatePreset.hold : GatePreset → List CardKind
  | .gateChecked => allAckKinds
  | .strict => [.releaseGateApproval]
  | .fullAuto => []

/-- `pipeline_mode`, `gate_policy_preset` when it names a preset, and the lists of `gate_policy`. -/
structure GateSettings where
  autonomous : Bool := false
  preset : Option GatePreset := none
  auto : Option (List CardKind) := none
  hold : Option (List CardKind) := none

structure GatePolicy where
  auto : List CardKind
  hold : List CardKind
  preset : GatePreset

def resolveGatePolicy (md : GateSettings) : GatePolicy :=
  let preset := md.preset.getD .strict
  ⟨md.auto.getD preset.auto, md.hold.getD preset.hold, preset⟩

def GatePolicy.canAutoAck (policy : GatePolicy) (kind : CardKind) : Bool :=
  if kind ∈ neverAuto then false
  else if kind ∈ policy.hold then false
  else if kind ∈ policy.auto then true
  else policy.preset ≠ .gateChecked && decide ("_approval".toList <:+ kind.text.toList)

def canAutoAck (kind : CardKind) (md : GateSettings) : Bool :=
  md.autonomous && (resolveGatePolicy md).canAutoAck kind

/-- The card of a failed role and that of a gap are left alone by every policy. -/
theorem canAutoAck_neverAuto {kind : CardKind} (h : kind ∈ neverAuto) (md : GateSettings) :
    canAutoAck kind md = false := by
  rw [canAutoAck, GatePolicy.canAutoAck, if_pos h, Bool.and_false]

/-- A list of kinds to hold overrides the preset. -/
theorem canAutoAck_of_hold {kind : CardKind} {kinds : List CardKind} {md : GateSettings}
    (hhold : md.hold = some kinds) (h : kind ∈ kinds) : canAutoAck kind md = false := by
  have hheld : kind ∈ (resolveGatePolicy md).hold := by
    rw [resolveGatePolicy, hhold]
    exact h
  rw [canAutoAck, GatePolicy.canAutoAck, if_pos hheld, ite_self, Bool.and_false]

end SpineFormal.Hub.Recovery
