import Mathlib.Order.Basic
import SpineFormal.Base.Decimal
import SpineFormal.Base.TextFields
import SpineFormal.Json.Value

/-!
# Replies of the verify tool

`verify_audit` wraps its `VerifyFindings` payload in the `ToolResponse` envelope
that every tool returns. The documents are those of `model_dump(mode="json")`.
The worst severity of a payload is the largest one; `info` is the smallest.
-/

namespace SpineFormal.Verify

open Json
set_option autoImplicit false

inductive ToolStatus where
  | ok
  | warning
  | error
  | refusal
  | stubImplementation
  deriving DecidableEq

def ToolStatus.text : ToolStatus → String
  | .ok => "ok"
  | .warning => "warning"
  | .error => "error"
  | .refusal => "refusal"
  | .stubImplementation => "stub_implementation"

/-- Severities from the mildest to the worst. -/
inductive Severity where
  | info
  | low
  | medium
  | high
  | critical
  deriving DecidableEq

def Severity.text : Severity → String
  | .info => "info"
  | .low => "low"
  | .medium => "medium"
  | .high => "high"
  | .critical => "critical"

def Severity.rank : Severity → Nat
  | .info => 0
  | .low => 1
  | .medium => 2
  | .high => 3
  | .critical => 4

inductive PassFail where
  | pass
  | fail
  | needsUserReview
  deriving DecidableEq

def PassFail.text : PassFail → String
  | .pass => "pass"
  | .fail => "fail"
  | .needsUserReview => "needs_user_review"

structure Finding where
  severity : Severity
  file : String
  line : Option Int
  rule : String
  message : String
  fixHint : Option String
  confidence : PyFloat
  layersVouched : List String

def Finding.dump (f : Finding) : Value :=
  .obj [("severity", .str f.severity.text), ("file", .str f.file),
    ("line", nullable (f.line.map .int)), ("rule", .str f.rule), ("message", .str f.message),
    ("fix_hint", nullable (f.fixHint.map .str)), ("confidence", .float f.confidence),
    ("layers_vouched", .arr (f.layersVouched.map .str))]

structure ToolError where
  code : String
  message : String
  retryable : Bool

def ToolError.dump (e : ToolError) : Value :=
  .obj [("code", .str e.code), ("message", .str e.message), ("retryable", .bool e.retryable)]

structure VerifyFindings where
  status : ToolStatus
  passFail : PassFail
  findings : List Finding
  layersRun : List String
  sandboxExecuted : Bool
  crossLlmConsensus : Bool
  calibrationBand : Option String
  durationMs : Int
  costUsd : PyDecimal
  auditId : Uuid
  error : Option ToolError

def VerifyFindings.dump (v : VerifyFindings) : Value :=
  .obj [("status", .str v.status.text), ("pass_fail", .str v.passFail.text),
    ("findings", .arr (v.findings.map Finding.dump)),
    ("layers_run", .arr (v.layersRun.map .str)), ("sandbox_executed", .bool v.sandboxExecuted),
    ("cross_llm_consensus", .bool v.crossLlmConsensus),
    ("calibration_band", nullable (v.calibrationBand.map .str)),
    ("duration_ms", .int v.durationMs), ("cost_usd", .str (String.ofList v.costUsd.str)),
    ("audit_id", .str (String.ofList v.auditId.text)),
    ("error", nullable (v.error.map ToolError.dump))]

/-- `Artifact` and `Citation`: a kind, a reference and a free text. -/
structure Reference where
  type : String
  ref : String
  note : Option String

def Reference.dump (noteKey : String) (r : Reference) : Value :=
  .obj [("type", .str r.type), ("ref", .str r.ref), (noteKey, nullable (r.note.map .str))]

/-- The envelope of a `verify_audit` reply. -/
structure ToolResponse where
  status : ToolStatus
  summary : Option String
  nextActions : List String
  artifacts : List Reference
  data : VerifyFindings
  error : Option ToolError
  auditId : Uuid
  timestamp : Wall
  citation : List Reference

def ToolResponse.dump (r : ToolResponse) : Value :=
  .obj [("status", .str r.status.text), ("summary", nullable (r.summary.map .str)),
    ("next_actions", .arr (r.nextActions.map .str)),
    ("artifacts", .arr (r.artifacts.map (Reference.dump "label"))), ("data", r.data.dump),
    ("error", nullable (r.error.map ToolError.dump)),
    ("audit_id", .str (String.ofList r.auditId.text)),
    ("timestamp", .str (String.ofList (r.timestamp.isoformat ++ ['Z']))),
    ("citation", .arr (r.citation.map (Reference.dump "excerpt")))]

def decidePassFail (findings : List Finding) : PassFail :=
  let sev := findings.map Finding.severity
  if .critical ∈ sev then .fail else if .high ∈ sev then .needsUserReview else .pass

def errorEnvelope (code message : String) (retryable : Bool) (auditId : Uuid) (durationMs : Int)
    (now : Wall) : ToolResponse :=
  let err : ToolError := ⟨code, message, retryable⟩
  { status := .error, summary := none, nextActions := [], artifacts := []
    data := ⟨.error, .needsUserReview, [], [], false, false, none, durationMs, ⟨false, 0, 0⟩,
      auditId, some err⟩
    error := some err, auditId := auditId, timestamp := now, citation := [] }

/-- `_citations_from_findings`; a missing line is written as 0. -/
def citationsFromFindings (findings : List Finding) (artifactUuid summaryAuditId : Uuid) :
    List Reference :=
  ⟨"audit_hash", String.ofList summaryAuditId.text,
    some (String.ofList ("verify summary for artifact ".toList ++ artifactUuid.text.take 8))⟩ ::
  findings.map fun f =>
    ⟨"file_line", String.ofList (f.file.toList ++ ':' :: Numerals.decimal (f.line.getD 0)), some f.rule⟩

/-- The reply of a run in which the audit itself succeeded. -/
def resultEnvelope (findings : List Finding) (layersRun : List String)
    (sandboxExecuted crossLlmConsensus : Bool) (calibrationBand : Option String) (durationMs : Int)
    (costUsd : PyDecimal) (persistedAuditId artifactUuid : Uuid) (now : Wall) : ToolResponse :=
  { status := .ok, summary := none, nextActions := [], artifacts := []
    data := ⟨.ok, decidePassFail findings, findings, layersRun, sandboxExecuted, crossLlmConsensus,
      calibrationBand, durationMs, costUsd, persistedAuditId, none⟩
    error := none, auditId := persistedAuditId, timestamp := now
    citation := citationsFromFindings findings artifactUuid persistedAuditId }

/-! ## The worst severity -/

def Severity.worse (a b : Severity) : Severity := if a.rank < b.rank then b else a

/-- The worst of the findings; without findings it is the mildest severity. -/
def worstSeverity (findings : List Finding) : Severity :=
  (findings.map Finding.severity).foldr Severity.worse .info

theorem Severity.rank_injective {a b : Severity} (h : a.rank = b.rank) : a = b := by
  cases a <;> cases b <;> first | rfl | cases h

theorem Severity.rank_worse (a b : Severity) : (a.worse b).rank = max a.rank b.rank := by
  rw [worse]
  split <;> omega

theorem rank_le_worstSeverity {findings : List Finding} {f : Finding} (hf : f ∈ findings) :
    f.severity.rank ≤ (worstSeverity findings).rank := by
  induction findings with
  | nil => cases hf
  | cons g gs ih =>
    rw [worstSeverity, List.map_cons, List.foldr_cons, Severity.rank_worse]
    rcases List.mem_cons.mp hf with rfl | hf
    · exact Nat.le_max_left _ _
    · exact Nat.le_trans (ih hf) (Nat.le_max_right _ _)

theorem worstSeverity_mem (findings : List Finding) :
    worstSeverity findings = .info ∨ ∃ f ∈ findings, f.severity = worstSeverity findings := by
  induction findings with
  | nil => exact Or.inl rfl
  | cons g gs ih =>
    rw [worstSeverity, List.map_cons, List.foldr_cons, Severity.worse]
    split
    · rcases ih with h | ⟨f, hf, h⟩
      · exact Or.inl h
      · exact Or.inr ⟨f, List.mem_cons_of_mem g hf, h⟩
    · exact Or.inr ⟨g, List.mem_cons_self, rfl⟩

/-- A severity is the worst when it occurs and no worse one does. -/
theorem worstSeverity_eq {findings : List Finding} {s : Severity}
    (hmem : s = .info ∨ ∃ f ∈ findings, f.severity = s)
    (hmax : ∀ f ∈ findings, f.severity.rank ≤ s.rank) : worstSeverity findings = s := by
  apply Severity.rank_injective
  apply Nat.le_antisymm
  · rcases worstSeverity_mem findings with h | ⟨f, hf, h⟩
    · rw [h]
      exact Nat.zero_le _
    · rw [← h]
      exact hmax f hf
  · rcases hmem with rfl | ⟨f, hf, rfl⟩
    · exact Nat.zero_le _
    · exact rank_le_worstSeverity hf

end SpineFormal.Verify
