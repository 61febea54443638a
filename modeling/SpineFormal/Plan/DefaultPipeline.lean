import SpineFormal.Py.Value

/-!
# The shipped pipeline

`plan/artifacts/sdlc-pipeline-default.yaml` as `yaml.safe_load` reads it.
-/

namespace SpineFormal.Plan

open Py
open Json (PyFloat)
set_option autoImplicit false

def mapping (ms : List (String × PyValue)) : PyValue := .dict (ms.map fun m => (.str m.1, m.2))

def texts (ss : List String) : PyValue := .list (ss.map .text)

def number (n : Int) : PyValue := .atom (.int n)

def flag (b : Bool) : PyValue := .atom (.bool b)

/-- `5.00`. -/
def fiveDollars : PyValue := .atom (.float (.finite false 5 0 (by decide)))

def pipelineDate : PyValue := .atom (.time "2026-05-16T00:00:00Z" "2026-05-16 00:00:00+00:00")

def userApproval (onReject : String) : PyValue :=
  mapping [("type", .text "user_approval"), ("approvers", texts ["user"]),
    ("min_approvals", number 1), ("on_reject", .text onReject)]

def autoGate : PyValue :=
  mapping [("type", .text "auto"), ("approvers", texts ["system"]), ("min_approvals", number 0)]

def verifyConfig : PyValue :=
  mapping [
    ("mcp_tool", .text "verify_audit"),
    ("iso_agents_default", texts ["SecurityISO", "BuilderISO", "QAISO", "PerformanceISO"]),
    ("layers_enabled", mapping [
      ("deterministic_scanners", flag true), ("schema_validation", flag true),
      ("sandbox_execution", flag true), ("cross_llm_validation", flag false),
      ("calibration", flag true), ("prompt_regression", flag true)]),
    ("cost_cap_usd", fiveDollars),
    ("auto_remediation_severity", .text "high")]

def defaultPhases : PyValue := .list [
  mapping [("id", .text "intake"), ("ownership", .text "plan"), ("role_lead", .text "product"),
    ("artifact", .text "PRD"), ("template", .text "prd-v1"), ("tier_default", .text "medium"),
    ("gate", userApproval "request_changes")],
  mapping [("id", .text "plan_in_progress"), ("ownership", .text "plan"),
    ("role_lead", .text "architect"), ("role_support", texts ["planner"]),
    ("swarm", mapping [
      ("members", texts ["researcher", "engineer", "datawright", "operator", "qa"]),
      ("composition_rule", .text "project_type")]),
    ("artifact", .text "TRD"), ("template", .text "trd-v1"), ("tier_default", .text "high"),
    ("gate", userApproval "request_changes")],
  mapping [("id", .text "plan_approved"), ("ownership", .text "plan"),
    ("role_lead", .text "planner"), ("role_support", texts ["conductor"]),
    ("artifact", .text "Roadmap"), ("template", .text "roadmap-v1"),
    ("tier_default", .text "medium"), ("gate", userApproval "request_changes")],
  mapping [("id", .text "build_in_progress"), ("ownership", .text "build"),
    ("role_lead", .text "conductor"),
    ("role_support", texts ["engineer", "datawright", "operator"]),
    ("artifact", .text "Code"), ("template", .text "build-log-v1"),
    ("tier_default", .text "medium"), ("gate", autoGate)],
  mapping [("id", .text "build_complete"), ("ownership", .text "build"),
    ("role_lead", .text "conductor"), ("role_support", texts ["engineer"]),
    ("artifact", .text "BuildLog"), ("template", .text "build-log-v1"),
    ("tier_default", .text "low"), ("gate", userApproval "request_changes")],
  mapping [("id", .text "verify_in_progress"), ("ownership", .text "verify"),
    ("role_lead", .text "qa"), ("role_support", texts ["operator"]),
    ("swarm", mapping [("members", texts ["qa", "operator"]),
      ("composition_rule", .text "project_type")]),
    ("artifact", .text "Findings"), ("template", .text "findings-v1"),
    ("tier_default", .text "high"), ("gate", autoGate), ("verify_config", verifyConfig),
    ("template_ref", .text "verify_findings_v1"),
    ("next", texts ["verify_approved", "build_in_progress"]),
    ("transitions", mapping [
      ("on_pass", .text "verify_approved"), ("on_critical", .text "blocked"),
      ("on_high", .text "build_in_progress"),
      ("on_medium", .text "verify_approved_with_warnings"),
      ("on_low", .text "verify_approved")])],
  mapping [("id", .text "verify_approved"), ("ownership", .text "verify"),
    ("role_lead", .text "qa"), ("artifact", .text "Findings"), ("template", .text "findings-v1"),
    ("tier_default", .text "low"),
    ("gate", mapping [("type", .text "multi_approver"), ("approvers", texts ["user", "qa"]),
      ("min_approvals", number 1), ("on_reject", .text "request_changes")])],
  mapping [("id", .text "acceptance"), ("ownership", .text "orchestrator"),
    ("role_lead", .text "product"), ("role_support", texts ["planner"]),
    ("artifact", .text "None"), ("tier_default", .text "low"), ("gate", userApproval "revert")],
  mapping [("id", .text "released"), ("ownership", .text "orchestrator"),
    ("role_lead", .text "operator"), ("artifact", .text "ReleaseNotes"),
    ("template", .text "release-notes-v1"), ("tier_default", .text "low"), ("gate", autoGate)],
  mapping [("id", .text "operate"), ("ownership", .text "orchestrator"),
    ("role_lead", .text "operator"), ("role_support", texts ["qa"]),
    ("artifact", .text "OpsRunbook"), ("template", .text "ops-runbook-v1"),
    ("tier_default", .text "low"), ("gate", autoGate)],
  mapping [("id", .text "retro"), ("ownership", .text "orchestrator"),
    ("role_lead", .text "planner"), ("role_support", texts ["product", "architect"]),
    ("artifact", .text "Retro"), ("template", .text "retro-v1"),
    ("tier_default", .text "medium"), ("gate", userApproval "terminate")]]

def projectType (swarm : List String) (template : String) : PyValue :=
  mapping [("swarm_override", texts swarm), ("intake_template", .text template)]

def defaultProjectTypes : PyValue := mapping [
  ("web-app", projectType ["researcher", "engineer", "operator", "qa"]
    "templates/intake/web-app.yaml"),
  ("internal-tool", projectType ["researcher", "engineer", "qa"]
    "templates/intake/internal-tool.yaml"),
  ("data-pipeline", projectType ["researcher", "engineer", "datawright", "operator"]
    "templates/intake/data-pipeline.yaml"),
  ("mobile", projectType ["researcher", "engineer", "qa", "operator"]
    "templates/intake/mobile.yaml"),
  ("api-service", projectType ["researcher", "engineer", "qa", "operator"]
    "templates/intake/api-service.yaml"),
  ("cli-tool", projectType ["researcher", "engineer", "qa"] "templates/intake/cli-tool.yaml")]

def defaultTemplates : PyValue := mapping [
  ("verify_findings_v1", mapping [("path", .text "templates/verify/findings_v1.yaml"),
    ("schema", .text "shared/mcp/tools/verify.py#VerifyFindings"),
    ("overridable_by", texts ["project_type", "org_bundle"])])]

def escalation (pattern tier : String) : PyValue :=
  mapping [("match", .text pattern), ("set_tier", .text tier)]

def defaultTierRouting : PyValue := mapping [
  ("per_phase_defaults", mapping [
    ("intake", .text "medium"), ("plan_in_progress", .text "high"),
    ("plan_approved", .text "medium"), ("build_in_progress", .text "medium"),
    ("build_complete", .text "low"), ("verify_in_progress", .text "high"),
    ("verify_approved", .text "low"), ("acceptance", .text "low"), ("released", .text "low"),
    ("operate", .text "low"), ("retro", .text "medium")]),
  ("escalation_rules", .list [escalation "synthesis" "high", escalation "decision" "high",
    escalation "chitchat" "low", escalation "clarification" "low",
    escalation "user_override" "high"]),
  ("budget_caps", mapping [("per_user", .none),
    ("per_project", mapping [("amount", fiveDollars), ("currency", .text "USD")]),
    ("per_team", .none), ("per_org", .none), ("enforcement", .text "hard")])]

def gatedBy (capability scope : String) : PyValue :=
  mapping [("capability", .text capability), ("scope", .text scope)]

def defaultCapabilities : Dict := [
  (.str "phases", gatedBy "can_modify_sdlc_pipeline" "org"),
  (.str "project_types", gatedBy "can_modify_sdlc_pipeline" "team"),
  (.str "tier_routing", gatedBy "can_modify_cost_policy" "team"),
  (.str "overrides", gatedBy "can_modify_sdlc_pipeline" "project"),
  (.str "audit", gatedBy "system_only" "org")]

def defaultAudit : PyValue := mapping [
  ("created_at", pipelineDate), ("last_edited_by", .text "spine-default"),
  ("last_edited_at", pipelineDate), ("rationale_required", flag true),
  ("git_tracked", flag true), ("lock_policy", .text "start_of_project")]

def sdlcPipelineDefault : Dict := [
  (.str "$schema", .text "spine.sdlc-pipeline/v1"),
  (.str "version", number 1),
  (.str "org_bundle", .text "spine-default"),
  (.str "phases", defaultPhases),
  (.str "project_types", defaultProjectTypes),
  (.str "templates", defaultTemplates),
  (.str "tier_routing", defaultTierRouting),
  (.str "overrides", mapping [("team", .dict []), ("project", .dict [])]),
  (.str "capabilities", .dict defaultCapabilities),
  (.str "audit", defaultAudit)]

end SpineFormal.Plan
