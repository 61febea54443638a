import SpineFormal.Base.Decimal
import SpineFormal.Base.Sha256
import SpineFormal.Base.TextFields
import SpineFormal.Json.Text

/-!
# Audit records

The record of `shared/audit/audit_record.py`, its content hash and the redactor of
`shared/audit/redactor.py`. A redaction rule is what its compiled pattern does to a
string. The redactor rewrites strings, so a `dict` stays a `dict`, and the link to
the previous record is not among the fields it touches.
-/

namespace SpineFormal.Audit

open Json
set_option autoImplicit false

/-- `ALLOWED_SUBSYSTEMS`. -/
inductive Subsystem where
  | plan
  | build
  | verify
  | orchestrator
  | shared
  | hub
  | federation
  | integration
  | devops
  deriving DecidableEq

def Subsystem.text : Subsystem → String
  | .plan => "plan"
  | .build => "build"
  | .verify => "verify"
  | .orchestrator => "orchestrator"
  | .shared => "shared"
  | .hub => "hub"
  | .federation => "federation"
  | .integration => "integration"
  | .devops => "devops"

/-- A `dict` of JSON values. -/
abbrev Metadata := { ms : Members // (Value.obj ms).Distinct }

/-- A cost that passed the field validator. -/
abbrev Cost := { d : PyDecimal // d.Nonneg }

structure AuditRecord where
  eventUuid : Uuid
  ts : Aware
  projectId : Option Int
  phase : Option String
  role : String
  subsystem : Subsystem
  action : String
  subjectType : Option String
  subjectId : Option String
  actor : String
  rationale : Option String
  metadata : Metadata
  promptHash : Option String
  outputHash : Option String
  costUsd : Option Cost
  pipelineVersion : Option String
  correlationId : Option Uuid
  parentEventId : Option Int
  errorCode : Option String
  errorMessage : Option String
  prevEventHash : Option String
  contentHash : Option String

def optText (s : Option String) : Value := nullable (s.map .str)

def optNumber (n : Option Int) : Value := nullable (n.map .int)

def costText (c : Option Cost) : Value := nullable (c.map fun c => .str (String.ofList c.1.formatF))

/-- What `compute_content_hash` hashes, with `_canon` applied; `ts` is the UTC reading. -/
def AuditRecord.payload (r : AuditRecord) (ts : Wall) : Members :=
  [("ts", .str (String.ofList ts.isoformatUtc)), ("project_id", optNumber r.projectId),
    ("phase", optText r.phase), ("role", .str r.role), ("subsystem", .str r.subsystem.text),
    ("action", .str r.action), ("subject_type", optText r.subjectType),
    ("subject_id", optText r.subjectId), ("actor", .str r.actor),
    ("rationale", optText r.rationale), ("metadata", .obj r.metadata.1),
    ("prompt_hash", optText r.promptHash), ("output_hash", optText r.outputHash),
    ("cost_usd", costText r.costUsd),
    ("pipeline_version", optText r.pipelineVersion),
    ("correlation_id", nullable (r.correlationId.map fun u => .str (String.ofList u.text))),
    ("parent_event_id", optNumber r.parentEventId), ("error_code", optText r.errorCode),
    ("error_message", optText r.errorMessage), ("prev_event_hash", optText r.prevEventHash)]

/-- The canonical JSON at a given UTC reading of `ts`. -/
def AuditRecord.canonical (r : AuditRecord) (ts : Wall) : List Char := dumps (.obj (r.payload ts))

/-- `none` is the `OverflowError` of a timestamp without UTC date. -/
def computeContentHash (r : AuditRecord) : Option String :=
  r.ts.astimezoneUtc.map fun ts => hexdigest (r.canonical ts)

def chainToPrevious (r : AuditRecord) (prevHash : Option String) : Option AuditRecord :=
  let updated := { r with prevEventHash := prevHash, contentHash := none }
  (computeContentHash updated).map fun h => { updated with contentHash := some h }

/-! ## Redaction -/

inductive RuleSeverity where
  | always
  | default
  | optIn
  deriving DecidableEq

/-- `subn` is the compiled pattern's `subn` with the rule's replacement. -/
structure RedactionRule where
  name : String
  fields : List String
  severity : RuleSeverity
  subn : String → String × Nat

def RuleSeverity.rank : RuleSeverity → Nat
  | .optIn => 0
  | .default => 1
  | .always => 2

def passesFloor (floor : RuleSeverity) (rule : RedactionRule) : Bool :=
  rule.severity = .always ∨ floor.rank ≤ rule.severity.rank

structure RedactionResult where
  redactionsApplied : Nat
  rulesMatched : List String
  redactedFields : List String

def noteOnce (names : List String) (name : String) : List String :=
  if name ∈ names then names else names ++ [name]

def redactStr (rules : List RedactionRule) (field s : String) (result : RedactionResult) :
    String × RedactionResult :=
  rules.foldl (fun acc rule =>
    match rule.subn acc.1 with
    | (_, 0) => acc
    | (new, n) => (new, ⟨acc.2.redactionsApplied + n, noteOnce acc.2.rulesMatched rule.name,
        noteOnce acc.2.redactedFields field⟩)) (s, result)

mutual
def redactValue (rules : List RedactionRule) (field : String) :
    Value → RedactionResult → Value × RedactionResult
  | .str s, result =>
    let r := redactStr rules field s result
    (.str r.1, r.2)
  | .obj ms, result =>
    let r := redactMembers rules field ms result
    (.obj r.1, r.2)
  | .arr xs, result =>
    let r := redactElems rules (field ++ "[]") xs result
    (.arr r.1, r.2)
  | v, result => (v, result)
def redactElems (rules : List RedactionRule) (field : String) :
    List Value → RedactionResult → List Value × RedactionResult
  | [], result => ([], result)
  | v :: vs, result =>
    let r := redactValue rules field v result
    let rs := redactElems rules field vs r.2
    (r.1 :: rs.1, rs.2)
def redactMembers (rules : List RedactionRule) (field : String) :
    List (String × Value) → RedactionResult → Members × RedactionResult
  | [], result => ([], result)
  | (k, v) :: ms, result =>
    let r := redactValue rules (field ++ "." ++ k) v result
    let rs := redactMembers rules field ms r.2
    ((k, r.1) :: rs.1, rs.2)
end

theorem redactMembers_keys (rules : List RedactionRule) (field : String) (ms : Members)
    (result : RedactionResult) :
    (redactMembers rules field ms result).1.map Prod.fst = ms.map Prod.fst := by
  induction ms generalizing result with
  | nil => simp [redactMembers]
  | cons m ms ih => simp [redactMembers, ih]

/-- The redactor keeps every key, so it keeps a `dict` a `dict`. -/
theorem redactValue_distinct (rules : List RedactionRule) (v : Value) (hv : v.Distinct)
    (field : String) (result : RedactionResult) :
    (redactValue rules field v result).1.Distinct := by
  induction v using Value.inductionOn generalizing field result with
  | null | bool | int | float | str => simp [redactValue, Value.Distinct]
  | arr xs ih =>
    rw [distinct_arr] at hv
    simp only [redactValue]
    rw [distinct_arr]
    generalize field ++ "[]" = field
    induction xs generalizing result with
    | nil => simp [redactElems]
    | cons v vs ihs =>
      simp only [redactElems, List.forall_mem_cons] at hv ⊢
      refine ⟨ih v List.mem_cons_self hv.1 field result, ?_⟩
      exact ihs (fun w hw => ih w (List.mem_cons_of_mem v hw)) hv.2 _
  | obj ms ih =>
    rw [distinct_obj] at hv
    simp only [redactValue]
    rw [distinct_obj, redactMembers_keys]
    refine ⟨hv.1, ?_⟩
    have hvals := hv.2
    clear hv
    induction ms generalizing result with
    | nil => simp [redactMembers]
    | cons m ms ihs =>
      simp only [redactMembers, List.forall_mem_cons] at hvals ⊢
      refine ⟨ih m List.mem_cons_self hvals.1 _ result, ?_⟩
      exact ihs (fun w hw => ih w (List.mem_cons_of_mem m hw)) _ hvals.2

theorem redactMembers_distinct (rules : List RedactionRule) (field : String) {ms : Members}
    (h : (Value.obj ms).Distinct) (result : RedactionResult) :
    (Value.obj (redactMembers rules field ms result).1).Distinct := by
  simpa only [redactValue] using redactValue_distinct rules (.obj ms) h field result

/-- `_redact_value` on `metadata`. -/
def redactMetadata (rules : List RedactionRule) (metadata : Metadata) (result : RedactionResult) :
    Metadata × RedactionResult :=
  (⟨(redactMembers rules "metadata" metadata.1 result).1,
      redactMembers_distinct rules "metadata" metadata.2 result⟩,
    (redactMembers rules "metadata" metadata.1 result).2)

instance : DecidableEq Value := fun a b =>
  decidable_of_iff (encode a = encode b) ⟨fun h => encode_injective h, congrArg encode⟩

def redactOptional (rules : List RedactionRule) (field : String) (current : Option String)
    (result : RedactionResult) : Option String × RedactionResult :=
  match current with
  | none => (none, result)
  | some s => if s = "" then (some s, result) else
    let r := redactStr rules field s result
    (some r.1, r.2)

/-- `redact`; the hash is cleared when some field changed. -/
def redact (rules : List RedactionRule) (floor : RuleSeverity) (r : AuditRecord) :
    AuditRecord × RedactionResult :=
  let active := rules.filter (passesFloor floor)
  let applicable (fname : String) := active.filter fun rule => fname ∈ rule.fields ∨ rule.fields = []
  let rationale := redactOptional (applicable "rationale") "rationale" r.rationale ⟨0, [], []⟩
  let message := redactOptional (applicable "error_message") "error_message" r.errorMessage rationale.2
  let subject := redactOptional (applicable "subject_id") "subject_id" r.subjectId message.2
  let actor := redactOptional (applicable "actor") "actor" (some r.actor) subject.2
  let metadata := redactMetadata (applicable "metadata") r.metadata actor.2
  let redacted : AuditRecord := { r with
    rationale := rationale.1, errorMessage := message.1, subjectId := subject.1
    actor := actor.1.getD r.actor, metadata := metadata.1 }
  if redacted.rationale = r.rationale ∧ redacted.errorMessage = r.errorMessage ∧
      redacted.subjectId = r.subjectId ∧ redacted.actor = r.actor ∧
      Value.obj redacted.metadata.1 = .obj r.metadata.1 then
    (r, metadata.2)
  else ({ redacted with contentHash := none }, metadata.2)

theorem redact_prevEventHash (rules : List RedactionRule) (floor : RuleSeverity) (r : AuditRecord) :
    (redact rules floor r).1.prevEventHash = r.prevEventHash := by
  unfold redact
  dsimp only
  split <;> rfl

/-- `metadata` with the redaction counters set. -/
def stampRedactions (metadata : Metadata) (summary : RedactionResult) : Metadata :=
  ⟨dictSet (dictSet metadata.1 "audit_redactions" (.int summary.redactionsApplied))
      "audit_redacted_fields" (.arr (summary.redactedFields.map .str)),
    (metadata.2.dictSet "audit_redactions" (by simp [Value.Distinct])).dictSet
      "audit_redacted_fields" ((distinct_arr _).mpr (by simp [Value.Distinct]))⟩

def applyRedaction (rules : List RedactionRule) (r : AuditRecord) : Option AuditRecord :=
  let redacted := redact rules .default r
  if redacted.2.redactionsApplied = 0 then some r
  else
    chainToPrevious
      { redacted.1 with metadata := stampRedactions redacted.1.metadata redacted.2, contentHash := none }
      redacted.1.prevEventHash

theorem applyRedaction_prevEventHash {rules : List RedactionRule} {r r' : AuditRecord}
    (h : applyRedaction rules r = some r') : r'.prevEventHash = r.prevEventHash := by
  unfold applyRedaction at h
  dsimp only at h
  split at h
  · rw [← Option.some.inj h]
  · obtain ⟨hash, _, rfl⟩ := Option.map_eq_some_iff.mp h
    exact redact_prevEventHash rules .default r

end SpineFormal.Audit
