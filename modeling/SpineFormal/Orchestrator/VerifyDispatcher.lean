import Mathlib.Data.List.DropRight
import SpineFormal.Verify.VerifyFindings

/-!
# Routing a verify reply

`_apply_transition_rules` of `verify_dispatcher.sh` with `jq` on the path. The
filters are kept as the shell runs them: a failing filter prints nothing and the
caller falls back. `verify_dispatch` hands over the whole reply of the tool, while
the filter looks for `findings` at the top of the document. On the payload inside
the envelope the filter finds the worst severity; on the envelope it finds none.
-/

namespace SpineFormal.Orchestrator

open Json Verify
set_option autoImplicit false

/-! ## The filters -/

/-- `.key`; `none` is an error of the filter. -/
def jqField (key : String) : Value → Option Value
  | .obj ms => some ((dictGet ms key).getD .null)
  | .null => some .null
  | _ => none

/-- `.[]?`. -/
def jqEach : Value → List Value
  | .arr xs => xs
  | .obj ms => (ms.map Prod.fst).dedup.filterMap (dictGet ms)
  | _ => []

/-- `. == "text"`. -/
def jqIs (text : String) : Value → Bool
  | .str s => s == text
  | _ => false

/-- `[.findings[]?.severity]`. -/
def jqSeverities (reply : Value) : Option (List Value) :=
  (jqField "findings" reply).bind fun findings => (jqEach findings).mapM (jqField "severity")

inductive Worst where
  | pass
  | critical
  | high
  | medium
  | low
  deriving DecidableEq

def Worst.text : Worst → String
  | .pass => "pass"
  | .critical => "critical"
  | .high => "high"
  | .medium => "medium"
  | .low => "low"

def jqWorst (severities : List Value) : Worst :=
  if severities.any (jqIs "critical") then .critical
  else if severities.any (jqIs "high") then .high
  else if severities.any (jqIs "medium") then .medium
  else if severities.any (jqIs "low") then .low
  else .pass

/-! ## The dispatcher -/

/-- The rules of `verify_config.transitions`. -/
inductive RuleField where
  | onPass
  | onCritical
  | onHigh
  | onMedium
  | onLow
  deriving DecidableEq

def Worst.ruleField : Worst → RuleField
  | .pass => .onPass
  | .critical => .onCritical
  | .high => .onHigh
  | .medium => .onMedium
  | .low => .onLow

/-- The merged `verify_config`; a rule that is not set is `none`. -/
structure VerifyConfig where
  transitions : RuleField → Option String

/-- What `$(...)` keeps of the output: no null characters, no newlines at the end. -/
def commandSubst (s : String) : String :=
  String.ofList ((s.toList.filter (· ≠ '\x00')).rdropWhile (· = '\n'))

inductive Action where
  | remediationSurfaceToUser (pid reason : String)
  | remediationDispatch (failedDid : String) (findingsJson : Value)
  | transitionExecute (pid phase actor reason : String)
  | nothing

/-- The side effect of the rules and the phase they print. -/
structure Routing where
  action : Action
  nextPhase : String

def applyTransitionRules (pid : String) (cfg : VerifyConfig) (findingsJson : Value)
    (failedDid : String) : Routing :=
  let worst := ((jqSeverities findingsJson).map jqWorst).getD .pass
  let nextPhase := commandSubst ((cfg.transitions worst.ruleField).getD "verify_approved")
  if nextPhase = "blocked" then
    ⟨.remediationSurfaceToUser pid "verify_audit: critical findings", "blocked"⟩
  else if nextPhase = "build_in_progress" then
    ⟨if failedDid = "" then .nothing else .remediationDispatch failedDid findingsJson,
      "build_in_progress"⟩
  else
    ⟨.transitionExecute pid nextPhase "orchestrator.verify_dispatcher"
      ("verify_audit severity=" ++ worst.text), nextPhase⟩

/-- The routing step of `verify_dispatch`: the rules get the response as it came. -/
def routeReply (pid : String) (cfg : VerifyConfig) (reply : ToolResponse) (failedDid : String) :
    Routing :=
  applyTransitionRules pid cfg reply.dump failedDid

/-! ## What the rules choose -/

theorem applyTransitionRules_nextPhase (pid : String) (cfg : VerifyConfig) (findingsJson : Value)
    (failedDid : String) :
    (applyTransitionRules pid cfg findingsJson failedDid).nextPhase =
      commandSubst ((cfg.transitions
        (((jqSeverities findingsJson).map jqWorst).getD .pass).ruleField).getD "verify_approved") := by
  unfold applyTransitionRules
  dsimp only
  generalize ((jqSeverities findingsJson).map jqWorst).getD .pass = worst
  generalize commandSubst ((cfg.transitions worst.ruleField).getD "verify_approved") = phase
  by_cases hblocked : phase = "blocked"
  · rw [if_pos hblocked, hblocked]
  · by_cases hbuild : phase = "build_in_progress"
    · rw [if_neg hblocked, if_pos hbuild, hbuild]
    · rw [if_neg hblocked, if_neg hbuild]

/-- The rule for a worst severity; `info` has none of its own. -/
def ruleFor : Severity → RuleField
  | .info => .onPass
  | .low => .onLow
  | .medium => .onMedium
  | .high => .onHigh
  | .critical => .onCritical

/-- A config that sets all five transitions. -/
def VerifyConfig.full (phases : RuleField → String) : VerifyConfig := ⟨fun r => some (phases r)⟩

theorem any_severity (fs : List Finding) (s : Severity) :
    ((fs.map fun f => Value.str f.severity.text).any (jqIs s.text) = true) ↔
      ∃ f ∈ fs, f.severity = s := by
  have htext : ∀ a : Severity, jqIs s.text (.str a.text) = true ↔ a = s := by
    intro a
    cases a <;> cases s <;> decide
  simp only [List.any_map, List.any_eq_true, Function.comp_apply, htext]

/-- The cascade stops at the worst severity: none above it occurs. -/
theorem jqWorst_findings (fs : List Finding) :
    (jqWorst (fs.map fun f => Value.str f.severity.text)).ruleField = ruleFor (worstSeverity fs) := by
  have habove (s : Severity) (hs : (worstSeverity fs).rank < s.rank) :
      (fs.map fun f => Value.str f.severity.text).any (jqIs s.text) = false := by
    rw [Bool.eq_false_iff, ne_eq, any_severity]
    rintro ⟨f, hf, rfl⟩
    have hle := rank_le_worstSeverity hf
    omega
  have hoccurs (s : Severity) (hs : worstSeverity fs = s) (hinfo : s ≠ .info) :
      (fs.map fun f => Value.str f.severity.text).any (jqIs s.text) = true := by
    rw [any_severity]
    subst hs
    exact (worstSeverity_mem fs).resolve_left hinfo
  generalize (fs.map fun f => Value.str f.severity.text) = severities at habove hoccurs ⊢
  cases hw : worstSeverity fs with
  | critical =>
    have h1 := hoccurs .critical hw (by decide)
    simp only [Severity.text] at h1
    simp [jqWorst, h1, Worst.ruleField, ruleFor]
  | high =>
    have h1 := habove .critical (by rw [hw]; decide)
    have h2 := hoccurs .high hw (by decide)
    simp only [Severity.text] at h1 h2
    simp [jqWorst, h1, h2, Worst.ruleField, ruleFor]
  | medium =>
    have h1 := habove .critical (by rw [hw]; decide)
    have h2 := habove .high (by rw [hw]; decide)
    have h3 := hoccurs .medium hw (by decide)
    simp only [Severity.text] at h1 h2 h3
    simp [jqWorst, h1, h2, h3, Worst.ruleField, ruleFor]
  | low =>
    have h1 := habove .critical (by rw [hw]; decide)
    have h2 := habove .high (by rw [hw]; decide)
    have h3 := habove .medium (by rw [hw]; decide)
    have h4 := hoccurs .low hw (by decide)
    simp only [Severity.text] at h1 h2 h3 h4
    simp [jqWorst, h1, h2, h3, h4, Worst.ruleField, ruleFor]
  | info =>
    have h1 := habove .critical (by rw [hw]; decide)
    have h2 := habove .high (by rw [hw]; decide)
    have h3 := habove .medium (by rw [hw]; decide)
    have h4 := habove .low (by rw [hw]; decide)
    simp only [Severity.text] at h1 h2 h3 h4
    simp [jqWorst, h1, h2, h3, h4, Worst.ruleField, ruleFor]

theorem jqSeverities_payload (v : VerifyFindings) :
    jqSeverities v.dump = some (v.findings.map fun f => Value.str f.severity.text) := by
  have hfindings : jqField "findings" v.dump = some (.arr (v.findings.map Finding.dump)) := by
    simp [jqField, VerifyFindings.dump, dictGet, lookup]
  have hseverity (f : Finding) : jqField "severity" f.dump = some (.str f.severity.text) := by
    simp [jqField, Finding.dump, dictGet, lookup]
  rw [jqSeverities, hfindings, Option.bind_some, jqEach]
  induction v.findings with
  | nil => rfl
  | cons f fs ih => simp [hseverity, ih]

/-- Nothing in the envelope itself is called `findings`. -/
theorem jqSeverities_envelope (reply : ToolResponse) : jqSeverities reply.dump = some [] := by
  simp [jqSeverities, jqField, ToolResponse.dump, dictGet, lookup, jqEach]

/-- Given the payload, the rules choose the phase of the worst severity. -/
theorem payload_routed (pid failedDid : String) (phases : RuleField → String) (v : VerifyFindings) :
    (applyTransitionRules pid (.full phases) v.dump failedDid).nextPhase =
      commandSubst (phases (ruleFor (worstSeverity v.findings))) := by
  rw [applyTransitionRules_nextPhase, jqSeverities_payload, Option.map_some, Option.getD_some,
    jqWorst_findings]
  rfl

/-- Given the envelope, they choose the phase for a pass. -/
theorem routeReply_nextPhase (pid failedDid : String) (phases : RuleField → String)
    (reply : ToolResponse) :
    (routeReply pid (.full phases) reply failedDid).nextPhase = commandSubst (phases .onPass) := by
  rw [routeReply, applyTransitionRules_nextPhase, jqSeverities_envelope]
  rfl

/-- The next phase is the one configured for the worst finding, and a reply that
is not `ok` does not pass. -/
structure RoutesBySeverity (pid failedDid : String) (phases : RuleField → String)
    (reply : ToolResponse) : Prop where
  worst : (routeReply pid (.full phases) reply failedDid).nextPhase =
    commandSubst (phases (ruleFor (worstSeverity reply.data.findings)))
  not_ok : reply.status ≠ .ok →
    (routeReply pid (.full phases) reply failedDid).nextPhase ≠ commandSubst (phases .onPass)

/-- Every reply is routed as a pass, so the routing is right exactly when a pass
is what the reply calls for. -/
theorem reply_routed_iff (pid failedDid : String) (phases : RuleField → String)
    (reply : ToolResponse) :
    RoutesBySeverity pid failedDid phases reply ↔
      reply.status = .ok ∧
        commandSubst (phases (ruleFor (worstSeverity reply.data.findings))) =
          commandSubst (phases .onPass) := by
  have hnext := routeReply_nextPhase pid failedDid phases reply
  constructor
  · rintro ⟨hworst, hnot⟩
    refine ⟨?_, hworst.symm.trans hnext⟩
    by_contra hstatus
    exact hnot hstatus hnext
  · rintro ⟨hstatus, hphase⟩
    exact ⟨hnext.trans hphase.symm, fun h => absurd hstatus h⟩

/-- The transitions of `phases.yaml`. -/
def defaultTransitions : RuleField → String
  | .onPass => "verify_approved"
  | .onCritical => "blocked"
  | .onHigh => "build_in_progress"
  | .onMedium => "verify_approved_with_warnings"
  | .onLow => "verify_approved"

def hardcodedKey : Finding :=
  ⟨.critical, "app/settings.py", some 12, "hardcoded_secret", "API key in source", none,
    .finite false 9 (-1) (by decide), ["iso_swarm"]⟩

def criticalReply : ToolResponse :=
  resultEnvelope [hardcodedKey] ["deterministic_scanners", "iso_swarm"] false false none 840
    ⟨false, 0, 0⟩ ⟨1, 0, 0, 0, 0⟩ ⟨2, 0, 0, 0, 0⟩ ⟨0, zero_lt_maxWall⟩

/-- A successful audit with a critical finding is approved. -/
theorem critical_reply_approved :
    ¬ ∀ (pid failedDid : String) (phases : RuleField → String) (reply : ToolResponse),
      RoutesBySeverity pid failedDid phases reply := by
  intro h
  have hworst := (h "7" "" defaultTransitions criticalReply).worst
  rw [routeReply_nextPhase] at hworst
  exact absurd hworst (by decide)

end SpineFormal.Orchestrator
