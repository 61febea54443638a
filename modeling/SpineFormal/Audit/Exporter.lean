import SpineFormal.Audit.AuditRecord
import SpineFormal.Base.TextCodec
import SpineFormal.Json.Loads

/-!
# The audit exporter

`shared/audit/exporter.py`: the rows of the audit table page by page, the redactor on
each row that validates as a record, and the rows handed to the writer. A row that does
not validate is passed on as it was read. The database and pydantic are parameters.
-/

namespace SpineFormal.Audit

open Json
set_option autoImplicit false

/-! ## What the redactor makes of a field -/

/-- The text that `_redact_str` returns. -/
def scrub (rules : List RedactionRule) (s : String) : String :=
  rules.foldl (fun out rule =>
    match rule.subn out with
    | (_, 0) => out
    | (new, _) => new) s

mutual
/-- The value that `_redact_value` returns. -/
def scrubValue (rules : List RedactionRule) : Value → Value
  | .str s => .str (scrub rules s)
  | .obj ms => .obj (scrubMembers rules ms)
  | .arr xs => .arr (scrubElems rules xs)
  | v => v
def scrubElems (rules : List RedactionRule) : List Value → List Value
  | [] => []
  | v :: vs => scrubValue rules v :: scrubElems rules vs
def scrubMembers (rules : List RedactionRule) : Members → Members
  | [] => []
  | (k, v) :: ms => (k, scrubValue rules v) :: scrubMembers rules ms
end

/-- The counters do not reach the text. -/
theorem redactStr_fst (rules : List RedactionRule) (field s : String) (result : RedactionResult) :
    (redactStr rules field s result).1 = scrub rules s := by
  induction rules generalizing s result with
  | nil => rfl
  | cons rule rules ih =>
    rw [redactStr, scrub, List.foldl_cons, List.foldl_cons]
    dsimp only
    rcases rule.subn s with ⟨new, _ | n⟩
    · exact ih s result
    · exact ih new _

theorem redactValue_fst (rules : List RedactionRule) (v : Value) (field : String)
    (result : RedactionResult) : (redactValue rules field v result).1 = scrubValue rules v := by
  induction v using Value.inductionOn generalizing field result with
  | null | bool | int | float => rfl
  | str s => rw [redactValue, scrubValue, redactStr_fst]
  | arr xs ih =>
    rw [redactValue, scrubValue]
    dsimp only
    congr 1
    generalize field ++ "[]" = field
    induction xs generalizing result with
    | nil => rfl
    | cons v vs ihs =>
      rw [redactElems, scrubElems, ih v List.mem_cons_self,
        ihs fun w hw => ih w (List.mem_cons_of_mem v hw)]
  | obj ms ih =>
    rw [redactValue, scrubValue]
    dsimp only
    congr 1
    induction ms generalizing result with
    | nil => rfl
    | cons m ms ihs =>
      rw [redactMembers, scrubMembers, ih m List.mem_cons_self,
        ihs fun w hw => ih w (List.mem_cons_of_mem m hw)]

theorem redactMetadata_fst (rules : List RedactionRule) (metadata : Metadata)
    (result : RedactionResult) :
    Value.obj (redactMetadata rules metadata result).1.1 = scrubValue rules (.obj metadata.1) := by
  rw [← redactValue_fst rules _ "metadata" result, redactValue]
  rfl

theorem redactOptional_fst (rules : List RedactionRule) (field : String) (current : Option String)
    (result : RedactionResult) :
    (redactOptional rules field current result).1 =
      current.map fun s => if s = "" then s else scrub rules s := by
  cases current with
  | none => rfl
  | some s =>
    rw [redactOptional]
    dsimp only
    by_cases hs : s = ""
    · rw [if_pos hs, Option.map_some, if_pos hs]
    · rw [if_neg hs, Option.map_some, if_neg hs, redactStr_fst]

/-! ## The fields with free text -/

/-- `_STRING_FIELDS` and `_DICT_FIELDS`. -/
inductive FreeField where
  | rationale
  | errorMessage
  | subjectId
  | actor
  | metadata
  deriving DecidableEq

def FreeField.name : FreeField → String
  | .rationale => "rationale"
  | .errorMessage => "error_message"
  | .subjectId => "subject_id"
  | .actor => "actor"
  | .metadata => "metadata"

/-- The field's default, for a row without it. -/
def FreeField.absent : FreeField → Value
  | .metadata => .obj []
  | _ => .null

def AuditRecord.free (r : AuditRecord) : FreeField → Value
  | .rationale => optText r.rationale
  | .errorMessage => optText r.errorMessage
  | .subjectId => optText r.subjectId
  | .actor => .str r.actor
  | .metadata => .obj r.metadata.1

/-- The active rules for a field. -/
def applicable (rules : List RedactionRule) (floor : RuleSeverity) (fname : String) :
    List RedactionRule :=
  (rules.filter (passesFloor floor)).filter fun rule => fname ∈ rule.fields ∨ rule.fields = []

/-- The redactor on a text field: an empty text stays. -/
def scrubText (rules : List RedactionRule) : Value → Value
  | .str s => .str (if s = "" then s else scrub rules s)
  | v => v

/-- The redactor on the value of one field. -/
def FreeField.scrub (rules : List RedactionRule) (f : FreeField) (v : Value) : Value :=
  match f with
  | .metadata => scrubValue (applicable rules .default f.name) v
  | _ => scrubText (applicable rules .default f.name) v

theorem optText_redactOptional (rules : List RedactionRule) (field : String)
    (current : Option String) (result : RedactionResult) :
    optText (redactOptional rules field current result).1 = scrubText rules (optText current) := by
  rw [redactOptional_fst]
  cases current <;> rfl

theorem redactActor (rules : List RedactionRule) (field actor : String) (result : RedactionResult) :
    Value.str ((redactOptional rules field (some actor) result).1.getD actor) =
      scrubText rules (.str actor) := by
  rw [redactOptional_fst]
  rfl

/-- The redacted record holds every free field scrubbed, whether some field changed or not. -/
theorem redact_free (rules : List RedactionRule) (r : AuditRecord) (f : FreeField) :
    (redact rules .default r).1.free f = f.scrub rules (r.free f) := by
  rw [redact]
  dsimp only
  split
  · rename_i hsame
    obtain ⟨hrationale, hmessage, hsubject, hactor, hmetadata⟩ := hsame
    cases f with
    | rationale => exact (congrArg optText hrationale).symm.trans (optText_redactOptional ..)
    | errorMessage => exact (congrArg optText hmessage).symm.trans (optText_redactOptional ..)
    | subjectId => exact (congrArg optText hsubject).symm.trans (optText_redactOptional ..)
    | actor => exact (congrArg Value.str hactor).symm.trans (redactActor ..)
    | metadata => exact hmetadata.symm.trans (redactMetadata_fst ..)
  · cases f with
    | rationale | errorMessage | subjectId => exact optText_redactOptional ..
    | actor => exact redactActor ..
    | metadata => exact redactMetadata_fst ..

/-! ## Rows of the audit table -/

/-- Timestamps by their `isoformat()`. -/
structure ExportFilters where
  projectId : Option String
  role : Option String
  subsystem : Option String
  action : Option String
  fromTs : Option String
  toTs : Option String
  correlationId : Option String
  severity : Option (List String)

structure ExportRequest where
  filters : ExportFilters
  includePayloads : Bool
  redactPii : Bool
  chunkSize : Nat
  one_le_chunkSize : 1 ≤ chunkSize
  chunkSize_le : chunkSize ≤ 100000

/-- `'` twice, between quotes. -/
def quoted (s : String) : String :=
  "'" ++ String.ofList (s.toList.flatMap fun c => if c = '\'' then [c, c] else [c]) ++ "'"

/-- A filter that is not set or empty adds no condition. -/
def condition (value : Option String) (render : String → String) : List String :=
  match value with
  | none => []
  | some s => if s = "" then [] else [render s]

/-- `_where`. -/
def whereClause (f : ExportFilters) : String :=
  " AND ".intercalate (["1=1"] ++
    condition f.projectId (fun s => "project_id::text = " ++ quoted s) ++
    condition f.role (fun s => "role = " ++ quoted s) ++
    condition f.subsystem (fun s => "subsystem = " ++ quoted s) ++
    condition f.action (fun s => "action = " ++ quoted s) ++
    condition f.correlationId (fun s => "correlation_id::text = " ++ quoted s) ++
    condition f.fromTs (fun s => "ts >= '" ++ s ++ "'::timestamptz") ++
    condition f.toTs (fun s => "ts <= '" ++ s ++ "'::timestamptz") ++
    match f.severity with
    | none => []
    | some [] => []
    | some vals => ["(metadata->>'severity') IN (" ++ ", ".intercalate (vals.map quoted) ++ ")"])

/-- The table in the order of `event_id`, with what the database evaluates for the query:
the condition, and `row_to_json`. -/
structure Database where
  Row : Type
  table : List Row
  holds : String → Row → Bool
  rowToJson : Row → List Char

/-- The lines of what `psql -At` prints for one page. -/
def pageLines (texts : List (List Char)) : List (List Char) :=
  (splitlines (texts.flatMap (· ++ ['\n']))).filter (· ≠ [])

/-- The pages of `chunk` rows, the first at `OFFSET`; lines that do not decode are passed over. -/
def streamPages (chunk : Nat) (texts : List (List Char)) : List Value :=
  let lines := pageLines (texts.take chunk)
  if lines = [] ∨ lines.length < chunk then lines.filterMap loadsText
  else lines.filterMap loadsText ++ streamPages chunk (texts.drop chunk)
termination_by texts.length
decreasing_by
  rename_i hmore
  obtain ⟨hlines, hlen⟩ := not_or.mp hmore
  rw [List.length_drop]
  have htexts : texts ≠ [] := by
    rintro rfl
    exact hlines (by simp [lines, pageLines, splitlines])
  have hpos := List.length_pos_iff.mpr htexts
  have hchunk : chunk ≠ 0 := by
    rintro rfl
    exact hlines (by simp [lines, pageLines, splitlines])
  omega

/-- `_stream_rows`. -/
def streamRows (db : Database) (filters : ExportFilters) (chunk : Nat) : List Value :=
  streamPages chunk ((db.table.filter (db.holds (whereClause filters))).map db.rowToJson)

/-! ## Rows out -/

mutual
/-- How `model_dump(mode="json")` writes a JSON value: a float that is not finite becomes null. -/
def jsonMode : Value → Value
  | .float .nan => .null
  | .float (.inf _) => .null
  | .arr xs => .arr (jsonElems xs)
  | .obj ms => .obj (jsonMembers ms)
  | v => v
def jsonElems : List Value → List Value
  | [] => []
  | v :: vs => jsonMode v :: jsonElems vs
def jsonMembers : Members → Members
  | [] => []
  | (k, v) :: ms => (k, jsonMode v) :: jsonMembers ms
end

/-- `AuditRecord(**fields)` up to the comparison of the hashes, and `model_dump(mode="json")`.
Text and JSON fields are taken as they are, and unset fields get their defaults. -/
structure Pydantic where
  parse : Members → Option AuditRecord
  dump : AuditRecord → Members
  parse_free : ∀ {fields r}, parse fields = some r →
    ∀ f, r.free f = (lookup fields f.name).getD f.absent
  dump_free : ∀ r f, lookup (dump r) f.name = some (jsonMode (r.free f))

/-- `_hash`, where a timestamp without UTC date fails too. -/
def hashAgrees (r : AuditRecord) : Bool :=
  match r.contentHash with
  | none => true
  | some hash => hash = "" ∨ computeContentHash r = some hash

/-- `AuditRecord(**{k: v for k, v in row.items() if k != "event_id"})`. -/
def validate (p : Pydantic) (fields : Members) : Option AuditRecord :=
  (p.parse (fields.filter fun m => m.1 ≠ "event_id")).filter hashAgrees

/-- The row as a record: what is not a `dict` has no `items`. -/
def recordOf (p : Pydantic) : Value → Option AuditRecord
  | .obj fields => validate p fields
  | _ => none

/-- `out["event_id"] = row.get("event_id")`. -/
def withEventId (out : Members) : Value → Members
  | .obj fields => dictSet out "event_id" ((lookup fields "event_id").getD .null)
  | _ => out

/-- `_maybe_redact`. -/
def maybeRedact (p : Pydantic) (rules : List RedactionRule) (row : Value) : Value × Nat :=
  match recordOf p row with
  | none => (row, 0)
  | some r =>
    (.obj (withEventId (p.dump (redact rules .default r).1) row),
      (redact rules .default r).2.redactionsApplied)

/-- `_trim_payloads`; `none` is the `AttributeError` of a row that is not a `dict`. -/
def trimPayloads (row : Value) (includePayloads : Bool) : Option Value :=
  if includePayloads then some row
  else
    match row with
    | .obj fields => some (.obj (fields.filter fun m => m.1 ∉ ["prompt_hash", "output_hash"]))
    | _ => none

/-- The rows handed to the writer, the redactions counted, and whether the export ended early. -/
structure ExportRun where
  rows : List Value
  redactions : Nat
  failed : Bool

/-- `_row_iter`, consumed by the writer. -/
def rowIter (p : Pydantic) (rules : List RedactionRule) (request : ExportRequest) :
    List Value → ExportRun
  | [] => ⟨[], 0, false⟩
  | raw :: rest =>
    let row := if request.redactPii then maybeRedact p rules raw else (raw, 0)
    match trimPayloads row.1 request.includePayloads with
    | none => ⟨[], row.2, true⟩
    | some trimmed =>
      let run := rowIter p rules request rest
      ⟨trimmed :: run.rows, row.2 + run.redactions, run.failed⟩

/-- The rules in force: `rules` when it is given and not empty. -/
def activeRules (defaults : List RedactionRule) (rules : Option (List RedactionRule)) :
    List RedactionRule :=
  match rules with
  | none => defaults
  | some [] => defaults
  | some rules => rules

def exportAudit (db : Database) (p : Pydantic) (defaults : List RedactionRule)
    (request : ExportRequest) (rules : Option (List RedactionRule)) : ExportRun :=
  rowIter p (activeRules defaults rules) request
    (streamRows db request.filters request.chunkSize)

/-! ## Paging -/

/-- The text of a row is one line. -/
def OneLine (text : List Char) : Prop := text ≠ [] ∧ ∀ c ∈ text, lineBreak c = false

instance (text : List Char) : Decidable (OneLine text) :=
  @instDecidableAnd _ _ inferInstance (List.decidableBAll _ _)

theorem pageLines_of_oneLine {texts : List (List Char)} (h : ∀ t ∈ texts, OneLine t) :
    pageLines texts = texts := by
  have hlines : splitlines (texts.flatMap (· ++ ['\n'])) = texts := by
    induction texts with
    | nil => rw [List.flatMap_nil, splitlines]
    | cons t texts ih =>
      obtain ⟨ht, htexts⟩ := List.forall_mem_cons.mp h
      rw [List.flatMap_cons, List.append_assoc, List.singleton_append, splitlines_line ht.2,
        ih htexts]
  rw [pageLines, hlines, List.filter_eq_self]
  intro t ht
  exact decide_eq_true (h t ht).1

/-- The pages together hold every row once. -/
theorem streamPages_of_oneLine {chunk : Nat} (hchunk : 1 ≤ chunk) {texts : List (List Char)}
    (h : ∀ t ∈ texts, OneLine t) : streamPages chunk texts = texts.filterMap loadsText := by
  induction hn : texts.length using Nat.strong_induction_on generalizing texts with
  | _ n ih =>
    have htake : pageLines (texts.take chunk) = texts.take chunk :=
      pageLines_of_oneLine fun t ht => h t (List.mem_of_mem_take ht)
    rw [streamPages, htake]
    split
    · rename_i hlast
      have hall : texts.length ≤ chunk := by
        rcases hlast with hnil | hshort
        · rcases List.take_eq_nil_iff.mp hnil with hzero | rfl
          · omega
          · exact Nat.zero_le _
        · rw [List.length_take] at hshort
          omega
      rw [List.take_of_length_le hall]
    · rename_i hmore
      have hpos : texts.length ≠ 0 := by
        rintro hzero
        rw [List.length_eq_zero_iff.mp hzero] at hmore
        simp at hmore
      rw [ih (texts.drop chunk).length (by rw [List.length_drop]; omega)
        (fun t ht => h t (List.mem_of_mem_drop ht)) rfl, ← List.filterMap_append,
        List.take_append_drop]

/-! ## What is emitted -/

/-- The row out holds what the redactor makes of the free fields of the row in. -/
def Redacted (rules : List RedactionRule) (raw row : Value) : Prop :=
  ∃ fields out, raw = .obj fields ∧ row = .obj out ∧ ∀ f : FreeField,
    lookup out f.name = some (jsonMode (f.scrub rules ((lookup fields f.name).getD f.absent)))

/-- A row that is a record comes out redacted, another one as it is, less its payload hashes. -/
def Emitted (p : Pydantic) (rules : List RedactionRule) (includePayloads : Bool)
    (raw row : Value) : Prop :=
  match recordOf p raw with
  | some _ => Redacted rules raw row
  | none => trimPayloads raw includePayloads = some row

section
variable {p : Pydantic} {rules : List RedactionRule} {request : ExportRequest} {raw row : Value}

theorem validate_free {fields : Members} {r : AuditRecord} (h : validate p fields = some r)
    (f : FreeField) : r.free f = (lookup fields f.name).getD f.absent := by
  have hparse := p.parse_free (Option.filter_eq_some_iff.mp h).1 f
  have hname : (decide (f.name ≠ "event_id")) = true := by cases f <;> rfl
  rwa [lookup_filter (fun k => decide (k ≠ "event_id")) hname] at hparse

theorem lookup_trimmed {ms : Members} {includePayloads : Bool} (f : FreeField)
    (h : trimPayloads (.obj ms) includePayloads = some row) :
    ∃ out, row = .obj out ∧ lookup out f.name = lookup ms f.name := by
  rw [trimPayloads] at h
  split at h
  · exact ⟨ms, (Option.some.inj h).symm, rfl⟩
  · refine ⟨_, (Option.some.inj h).symm, lookup_filter
      (fun k => decide (k ∉ ["prompt_hash", "output_hash"])) ?_ ms⟩
    cases f <;> decide

theorem redacted_of_record {r : AuditRecord} {includePayloads : Bool}
    (hr : recordOf p raw = some r)
    (h : trimPayloads (maybeRedact p rules raw).1 includePayloads = some row) :
    Redacted rules raw row := by
  rw [maybeRedact, hr] at h
  cases raw with
  | null | bool | int | float | str | arr => cases hr
  | obj fields =>
    have hvalid : validate p fields = some r := hr
    have hout (f : FreeField) : ∃ out, row = .obj out ∧ lookup out f.name =
        some (jsonMode (f.scrub rules ((lookup fields f.name).getD f.absent))) := by
      obtain ⟨out, hrow, hlookup⟩ := lookup_trimmed f h
      have hname : f.name ≠ "event_id" := by cases f <;> decide
      refine ⟨out, hrow, ?_⟩
      rw [hlookup, withEventId, lookup_dictSet_of_ne _ hname, p.dump_free, redact_free,
        validate_free hvalid]
    obtain ⟨out, rfl, -⟩ := hout .actor
    refine ⟨fields, out, rfl, rfl, fun f => ?_⟩
    obtain ⟨out', heq, hlookup⟩ := hout f
    rwa [Value.obj.inj heq]

theorem emitted_of_trimmed {includePayloads : Bool}
    (h : trimPayloads (maybeRedact p rules raw).1 includePayloads = some row) :
    Emitted p rules includePayloads raw row := by
  rw [Emitted]
  split
  · rename_i r hr
    exact redacted_of_record hr h
  · rename_i hr
    rwa [maybeRedact, hr] at h

/-- One row in, one row out, up to the row at which the export ends. -/
theorem rowIter_emitted (hpii : request.redactPii = true) (raws : List Value) :
    List.Forall₂ (Emitted p rules request.includePayloads)
      (raws.take (rowIter p rules request raws).rows.length)
      (rowIter p rules request raws).rows := by
  induction raws with
  | nil => exact .nil
  | cons raw rest ih =>
    rw [rowIter, if_pos hpii]
    dsimp only
    split
    · exact .nil
    · rename_i trimmed htrim
      exact .cons (emitted_of_trimmed htrim) ih

/-- With `redact_pii`, every row emitted comes from a row of the table, in their order; it is
redacted when that row validates as a record. -/
theorem exportAudit_emitted (db : Database) (defaults : List RedactionRule)
    (given : Option (List RedactionRule)) (hpii : request.redactPii = true) :
    List.Forall₂ (Emitted p (activeRules defaults given) request.includePayloads)
      ((streamRows db request.filters request.chunkSize).take
        (exportAudit db p defaults request given).rows.length)
      (exportAudit db p defaults request given).rows :=
  rowIter_emitted hpii _

end

/-! ## A row whose hash is stale -/

/-- `Optional[str]`: only a text or null. -/
def readOptText : Option Value → Option (Option String)
  | none => some none
  | some .null => some none
  | some (.str s) => some (some s)
  | _ => none

theorem readOptText_spec {v : Option Value} {o : Option String} (h : readOptText v = some o) :
    optText o = v.getD .null := by
  unfold readOptText at h
  split at h <;> cases h <;> rfl

/-- `dict[str, Any]`. -/
def readMetadata : Option Value → Option Metadata
  | none => some ⟨[], distinct_empty⟩
  | some (.obj ms) =>
    if h : (Value.obj ms).dicts = .obj ms then some ⟨ms, h ▸ dicts_distinct _⟩ else none
  | _ => none

theorem readMetadata_spec {v : Option Value} {m : Metadata} (h : readMetadata v = some m) :
    Value.obj m.1 = v.getD (.obj []) := by
  unfold readMetadata at h
  split at h
  · cases h
    rfl
  · split at h <;> cases h
    rfl
  · cases h

/-- The columns of the rows below that are neither free text nor the hash. -/
def plainFields (ts : String) : Members :=
  [("event_uuid", .str "00000000-0000-0000-0000-000000000000"), ("ts", .str ts),
    ("project_id", .null), ("phase", .null), ("role", .str "engineer"), ("subsystem", .str "build"),
    ("action", .str "commit"), ("subject_type", .null), ("prompt_hash", .null),
    ("output_hash", .null), ("cost_usd", .null), ("pipeline_version", .null),
    ("correlation_id", .null), ("parent_event_id", .null), ("error_code", .null),
    ("prev_event_hash", .null)]

def plainRecord (rationale errorMessage subjectId : Option String) (actor : String)
    (metadata : Metadata) (contentHash : Option String) : AuditRecord where
  eventUuid := ⟨0, 0, 0, 0, 0⟩
  ts := Wall.inUtc ⟨0, zero_lt_maxWall⟩
  projectId := none
  phase := none
  role := "engineer"
  subsystem := .build
  action := "commit"
  subjectType := none
  subjectId := subjectId
  actor := actor
  rationale := rationale
  metadata := metadata
  promptHash := none
  outputHash := none
  costUsd := none
  pipelineVersion := none
  correlationId := none
  parentEventId := none
  errorCode := none
  errorMessage := errorMessage
  prevEventHash := none
  contentHash := contentHash

/-- pydantic on rows with these columns. -/
def plainPydantic : Pydantic where
  parse fields :=
    if fields.filter (fun m => m.1 ∈ (plainFields "").map Prod.fst) =
        plainFields "0001-01-01T00:00:00+00:00" then
      match readOptText (lookup fields "rationale"), readOptText (lookup fields "error_message"),
        readOptText (lookup fields "subject_id"), lookup fields "actor",
        readMetadata (lookup fields "metadata"), readOptText (lookup fields "content_hash") with
      | some rationale, some message, some subject, some (.str actor), some metadata, some hash =>
        some (plainRecord rationale message subject actor metadata hash)
      | _, _, _, _, _, _ => none
    else none
  dump r := [("event_id", .null)] ++ plainFields "0001-01-01T00:00:00Z" ++
    [("subject_id", optText r.subjectId), ("actor", .str r.actor),
      ("rationale", optText r.rationale), ("metadata", jsonMode (.obj r.metadata.1)),
      ("error_message", optText r.errorMessage), ("content_hash", optText r.contentHash)]
  parse_free h f := by
    split at h
    · split at h
      · rename_i hrationale hmessage hsubject hactor hmetadata hhash
        cases h
        cases f with
        | rationale => exact readOptText_spec hrationale
        | errorMessage => exact readOptText_spec hmessage
        | subjectId => exact readOptText_spec hsubject
        | actor => exact (congrArg (Option.getD · .null) hactor).symm
        | metadata => exact readMetadata_spec hmetadata
      · cases h
    · cases h
  dump_free r f := by
    have htext (o : Option String) : jsonMode (optText o) = optText o := by cases o <;> rfl
    cases f with
    | rationale | errorMessage | subjectId => rw [AuditRecord.free, htext]; rfl
    | actor | metadata => rfl

/-- A row with the password in its rationale. -/
def passwordRow (contentHash : String) : Value :=
  .obj ([("event_id", .int 1)] ++ plainFields "0001-01-01T00:00:00+00:00" ++
    [("subject_id", .null), ("actor", .str "ana"), ("rationale", .str "hunter2"),
      ("metadata", .obj []), ("error_message", .null), ("content_hash", .str contentHash)])

def passwordTable (contentHash : String) : Database where
  Row := Value
  table := [passwordRow contentHash]
  holds _ _ := true
  rowToJson := encode

/-- The pattern is the whole password. -/
def passwordRule : RedactionRule where
  name := "password"
  fields := []
  severity := .always
  subn s := if s = "hunter2" then ("[REDACTED]", 1) else (s, 0)

def redactingRequest : ExportRequest where
  filters := ⟨none, none, none, none, none, none, none, none⟩
  includePayloads := false
  redactPii := true
  chunkSize := 10000
  one_le_chunkSize := by decide
  chunkSize_le := by decide

theorem oneLine_encode {v : Value} (h : encode v ≠ []) : OneLine (encode v) := by
  refine ⟨h, fun c hc => ?_⟩
  obtain ⟨hlow, hhigh⟩ := printable_encode v c hc
  simp only [lineBreak, Bool.or_eq_false_iff, decide_eq_false_iff_not, List.contains_eq_mem,
    List.mem_cons, List.not_mem_nil, or_false]
  omega

theorem streamRows_passwordTable (contentHash : String) :
    streamRows (passwordTable contentHash) redactingRequest.filters redactingRequest.chunkSize =
      [passwordRow contentHash] := by
  have htexts : ((passwordTable contentHash).table.filter
      ((passwordTable contentHash).holds (whereClause redactingRequest.filters))).map
        (passwordTable contentHash).rowToJson = [encode (passwordRow contentHash)] := rfl
  have hline : OneLine (encode (passwordRow contentHash)) :=
    oneLine_encode fun h => nomatch h
  have hdicts : (passwordRow contentHash).dicts = passwordRow contentHash := rfl
  rw [streamRows, htexts, streamPages_of_oneLine redactingRequest.one_le_chunkSize
    (by simpa using hline), List.filterMap_cons_some (by rw [loadsText_encode, hdicts]),
    List.filterMap_nil]

theorem recordOf_passwordRow (contentHash : String) :
    recordOf plainPydantic (passwordRow contentHash) =
      (some (plainRecord (some "hunter2") none none "ana" ⟨[], distinct_empty⟩
        (some contentHash))).filter hashAgrees :=
  rfl

/-- The hash of the row. -/
def sealedHash : String :=
  (computeContentHash
    (plainRecord (some "hunter2") none none "ana" ⟨[], distinct_empty⟩ none)).getD ""

/-- A hash in capital digits is not what `hexdigest` gives. -/
def staleHash : String := String.ofList (List.replicate 64 'F')

theorem hexdigest_ne_staleHash (text : List Char) : hexdigest text ≠ staleHash := by
  intro h
  have hmem : 'F' ∈ hex (sha256 (encodeUtf8 text)) := by
    rw [← hexdigest_toList, h]
    decide +kernel
  rw [hex, List.mem_flatMap] at hmem
  obtain ⟨b, -, hb⟩ := hmem
  obtain ⟨d, hd, hchar⟩ := Numerals.mem_fixed (by decide) hb
  have hdigits : ∀ d < 16, 'F' ≠ Nat.digitChar d := by decide
  exact hdigits d hd hchar

theorem recordOf_staleRow : recordOf plainPydantic (passwordRow staleHash) = none := by
  have hstale : hashAgrees (plainRecord (some "hunter2") none none "ana" ⟨[], distinct_empty⟩
      (some staleHash)) = false := by
    have hhash : computeContentHash (plainRecord (some "hunter2") none none "ana"
        ⟨[], distinct_empty⟩ (some staleHash)) ≠ some staleHash := by
      rw [computeContentHash]
      intro h
      obtain ⟨ts, -, htext⟩ := Option.map_eq_some_iff.mp h
      exact hexdigest_ne_staleHash _ htext
    exact decide_eq_false (not_or.mpr ⟨by decide +kernel, hhash⟩)
  rw [recordOf_passwordRow, Option.filter_some, hstale]
  rfl

theorem recordOf_sealedRow : recordOf plainPydantic (passwordRow sealedHash) =
    some (plainRecord (some "hunter2") none none "ana" ⟨[], distinct_empty⟩ (some sealedHash)) := by
  have hagrees : hashAgrees (plainRecord (some "hunter2") none none "ana" ⟨[], distinct_empty⟩
      (some sealedHash)) = true := decide_eq_true (.inr rfl)
  rw [recordOf_passwordRow, Option.filter_some, hagrees]
  rfl

/-- The redacted row, less its payload hashes. -/
def redactedRow : Value :=
  .obj ([("event_id", .int 1)] ++ (plainFields "0001-01-01T00:00:00Z").filter (fun m =>
      m.1 ∉ ["prompt_hash", "output_hash"]) ++
    [("subject_id", .null), ("actor", .str "ana"), ("rationale", .str "[REDACTED]"),
      ("metadata", .obj []), ("error_message", .null), ("content_hash", .null)])

theorem exportAudit_emitted_sealedRow :
    (exportAudit (passwordTable sealedHash) plainPydantic [] redactingRequest
      (some [passwordRule])).rows = [redactedRow] ∧
    Redacted [passwordRule] (passwordRow sealedHash) redactedRow := by
  have hrows : (exportAudit (passwordTable sealedHash) plainPydantic [] redactingRequest
      (some [passwordRule])).rows = [redactedRow] := by
    rw [exportAudit, streamRows_passwordTable, rowIter,
      if_pos (show redactingRequest.redactPii = true from rfl), maybeRedact, recordOf_sealedRow]
    rfl
  refine ⟨hrows, ?_⟩
  have hemitted := @exportAudit_emitted plainPydantic redactingRequest
    (passwordTable sealedHash) [] (some [passwordRule]) rfl
  rw [hrows, streamRows_passwordTable] at hemitted
  have hrow := (List.forall₂_cons.mp hemitted).1
  rwa [Emitted, recordOf_sealedRow] at hrow

/-- The row with the stale hash goes out with its password. -/
theorem stale_row_is_not_redacted :
    ¬ ∀ row ∈ (exportAudit (passwordTable staleHash) plainPydantic [] redactingRequest
        (some [passwordRule])).rows,
      ∃ raw ∈ streamRows (passwordTable staleHash) redactingRequest.filters
        redactingRequest.chunkSize, Redacted [passwordRule] raw row := by
  intro h
  rw [exportAudit, streamRows_passwordTable, rowIter,
    if_pos (show redactingRequest.redactPii = true from rfl), maybeRedact, recordOf_staleRow] at h
  obtain ⟨raw, hraw, fields, out, hfields, hout, hfree⟩ := h _ List.mem_cons_self
  obtain rfl := List.mem_singleton.mp hraw
  obtain rfl := Value.obj.inj hfields
  obtain rfl := Value.obj.inj hout
  have hrationale : some (Value.str "hunter2") = some (Value.str "[REDACTED]") := hfree .rationale
  exact absurd hrationale (by decide +kernel)

end SpineFormal.Audit
