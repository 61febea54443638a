import SpineFormal.Audit.AuditRecord
import SpineFormal.Base.HashChain
import SpineFormal.Base.Run

/-!
# The audit chain under concurrent writers

The three writers of `spine_audit.audit_event` and the view that looks for breaks.
The build dispatcher reads the tip and inserts in a second statement; the auditor
and the knowledge-graph tools insert without looking for a tip. Statements of
different writers interleave freely. The chain holds along every run in which each
insert still names the last row: a dispatcher whose tip has not moved since it read
it, the other two only on an empty table.
-/

namespace SpineFormal.Audit

open Json
set_option autoImplicit false

/-! ## The table -/

/-- A row of `spine_audit.audit_event`; `content_hash` is not null. -/
structure AuditRow where
  eventId : Nat
  record : AuditRecord
  contentHash : String
  hashed : record.contentHash = some contentHash

/-- The rows in `event_id` order and the next value of the sequence. -/
structure AuditTable where
  rows : List AuditRow
  nextId : Nat
  ordered : rows.Pairwise fun a b => a.eventId < b.eventId
  below : ∀ r ∈ rows, r.eventId < nextId

def AuditTable.empty : AuditTable := ⟨[], 1, List.Pairwise.nil, by simp⟩

/-- `INSERT ... RETURNING event_id`. -/
def AuditTable.insert (t : AuditTable) (record : AuditRecord) (hash : String)
    (hashed : record.contentHash = some hash) : AuditTable where
  rows := t.rows ++ [⟨t.nextId, record, hash, hashed⟩]
  nextId := t.nextId + 1
  ordered := by
    rw [List.pairwise_append]
    exact ⟨t.ordered, List.pairwise_singleton _ _, fun a ha b hb => by
      rw [List.mem_singleton.mp hb]
      exact t.below a ha⟩
  below r hr := by
    rcases List.mem_append.mp hr with hr | hr
    · exact Nat.lt_succ_of_lt (t.below r hr)
    · rw [List.mem_singleton.mp hr]
      exact Nat.lt_succ_self _

/-- A failed insert that drew a value from the sequence. -/
def AuditTable.skipId (t : AuditTable) : AuditTable :=
  { t with nextId := t.nextId + 1, below := fun r hr => Nat.lt_succ_of_lt (t.below r hr) }

/-- `SELECT content_hash ... ORDER BY event_id DESC LIMIT 1`. -/
def AuditTable.tip (t : AuditTable) : Option String := t.rows.getLast?.map AuditRow.contentHash

/-- The scan of `v_audit_chain_integrity` with the lagged hash. -/
def integrityScan : Option String → List AuditRow → List AuditRow
  | _, [] => []
  | expected, r :: rs =>
    if 1 < r.eventId ∧ r.record.prevEventHash ≠ expected then
      r :: integrityScan (some r.contentHash) rs
    else integrityScan (some r.contentHash) rs

def AuditTable.chainIntegrity (t : AuditTable) : List AuditRow := integrityScan none t.rows

/-! ## The writers -/

inductive Verdict where
  | approved
  | kgImpactMismatch
  | scopeViolation
  | schemaInvalid
  | needsReview

def Verdict.text : Verdict → String
  | .approved => "approved"
  | .kgImpactMismatch => "kg_impact_mismatch"
  | .scopeViolation => "scope_violation"
  | .schemaInvalid => "schema_invalid"
  | .needsReview => "needs_review"

/-- The arguments of `_write_audit`. -/
structure BuildAudit where
  action : String
  projectId : Int
  actor : String
  metadata : Metadata
  rationale : Option String
  subjectId : Option String
  subjectType : String
  phase : String

/-- The counts of a `KGImpactDiff`. -/
structure ImpactCounts where
  claimed : Int
  actual : Int
  missing : Nat
  extra : Nat

/-- What the auditor's `_audit` reads of its arguments. -/
structure AuditorAudit where
  actor : String
  artifactUuid : Uuid
  directiveId : String
  projectId : String
  role : String
  verdict : Verdict
  strict : Bool
  diff : Option ImpactCounts
  scopeViolations : Nat
  schemaErrors : Nat
  durationMs : Int

/-- The arguments of `_write_kg_audit`. -/
structure KgAudit where
  action : String
  subjectId : String
  metadata : Metadata

inductive WriteCall where
  | build (a : BuildAudit)
  | auditor (a : AuditorAudit)
  | kg (a : KgAudit)

/-- An `AuditRecord` with the defaults of its optional fields. -/
def newRecord (eventUuid : Uuid) (now : Wall) (role : String) (subsystem : Subsystem)
    (action actor : String) (subjectType subjectId : String) (metadata : Metadata) : AuditRecord where
  eventUuid := eventUuid
  ts := now.inUtc
  projectId := none
  phase := none
  role := role
  subsystem := subsystem
  action := action
  subjectType := some subjectType
  subjectId := some subjectId
  actor := actor
  rationale := none
  metadata := metadata
  promptHash := none
  outputHash := none
  costUsd := none
  pipelineVersion := none
  correlationId := none
  parentEventId := none
  errorCode := none
  errorMessage := none
  prevEventHash := none
  contentHash := none

/-- `meta` of the auditor. -/
def AuditorAudit.metadata (a : AuditorAudit) : Metadata :=
  ⟨[("verdict", .str a.verdict.text), ("strict", .bool a.strict),
      ("directive_id", .str a.directiveId), ("project_id", .str a.projectId), ("role", .str a.role),
      ("scope_violation_count", .int a.scopeViolations), ("schema_error_count", .int a.schemaErrors),
      ("duration_ms", .int a.durationMs)] ++
    match a.diff with
    | none => []
    | some d => [("claimed_count", .int d.claimed), ("actual_count", .int d.actual),
        ("missing_count", .int d.missing), ("extra_count", .int d.extra)],
    by cases a.diff <;> simp [Value.Distinct, DistinctMembers]⟩

/-- The record a writer builds, before it is chained. -/
def WriteCall.record (eventUuid : Uuid) (now : Wall) : WriteCall → AuditRecord
  | .build a =>
    let subject := match a.subjectId with
      | some s => if s = "" then "build:" ++ String.ofList (Numerals.decimal a.projectId) else s
      | none => "build:" ++ String.ofList (Numerals.decimal a.projectId)
    { newRecord eventUuid now "engineer" .build a.action a.actor a.subjectType subject a.metadata with
      projectId := some a.projectId, phase := some a.phase, rationale := a.rationale }
  | .auditor a =>
    newRecord eventUuid now a.actor .shared "verify_build_artifact" a.actor "build_artifact"
      (String.ofList a.artifactUuid.text) a.metadata
  | .kg a => newRecord eventUuid now "agent" .shared a.action "mcp" "kg_query" a.subjectId a.metadata

inductive Stage where
  | start
  | tipRead (tip : Option String)
  | done (written : Bool)
  deriving DecidableEq

structure WriteSession where
  call : WriteCall
  stage : Stage

/-- The hash that a session about to insert chains to. -/
def WriteSession.link (s : WriteSession) : Option (Option String) :=
  match s.call, s.stage with
  | .build _, .tipRead tip => some tip
  | .auditor _, .start => some none
  | .kg _, .start => some none
  | _, _ => none

/-- The rules of the redactor, and whether `SPINE_AUDIT_REDACT` leaves it on. -/
structure Redaction where
  rules : List RedactionRule
  enabled : Bool

/-- `write_via_psql` up to the statement: the row that goes in, with its hash. -/
def prepare (red : Redaction) (record : AuditRecord) : Option AuditRecord :=
  if red.enabled then applyRedaction red.rules record else some record

def writeViaPsql (red : Redaction) (t : AuditTable) (record : AuditRecord) : Option AuditTable :=
  (prepare red record).bind fun r =>
    match h : r.contentHash with
    | none => none
    | some hash => some (t.insert r hash h)

structure AuditSystem where
  table : AuditTable
  sessions : List WriteSession

def AuditSystem.start (calls : List WriteCall) : AuditSystem :=
  ⟨.empty, calls.map fun c => ⟨c, .start⟩⟩

/-- One statement of one session; a failing one is swallowed by its writer. -/
inductive AuditEvent where
  | readTip (session : Nat)
  | readTipFails (session : Nat)
  | insert (session : Nat) (eventUuid : Uuid) (now : Wall)
  | insertFails (session : Nat) (idDrawn : Bool)

def AuditSystem.setStage (s : AuditSystem) (i : Nat) (session : WriteSession) (stage : Stage) :
    AuditSystem :=
  { s with sessions := s.sessions.set i { session with stage := stage } }

/-- `tip or None`, on what the tip query returned. -/
def tipOrNone (tip : Option String) : Option String := tip.filter (· ≠ "")

def AuditSystem.step (red : Redaction) (s : AuditSystem) : AuditEvent → Option AuditSystem
  | .readTip i =>
    match s.sessions[i]? with
    | some ⟨.build a, .start⟩ => some (s.setStage i ⟨.build a, .start⟩ (.tipRead (tipOrNone s.table.tip)))
    | _ => none
  | .readTipFails i =>
    match s.sessions[i]? with
    | some ⟨.build a, .start⟩ => some (s.setStage i ⟨.build a, .start⟩ (.tipRead none))
    | _ => none
  | .insert i eventUuid now =>
    s.sessions[i]?.bind fun session => session.link.bind fun link =>
      match (chainToPrevious (session.call.record eventUuid now) link).bind
          (writeViaPsql red s.table) with
      | some t => some { s.setStage i session (.done true) with table := t }
      | none => some (s.setStage i session (.done false))
  | .insertFails i idDrawn =>
    s.sessions[i]?.bind fun session => session.link.map fun _ =>
      { s.setStage i session (.done false) with
        table := if idDrawn then s.table.skipId else s.table }

/-! ## The chain along a run -/

/-- Every row names the row before it, the first one none. -/
def AuditTable.Chained (t : AuditTable) : Prop :=
  Linked (fun prev r => r.record.prevEventHash = prev) (fun r => some r.contentHash) none t.rows

theorem AuditTable.tip_eq_tipAfter (t : AuditTable) :
    t.tip = tipAfter (fun r => some r.contentHash) none t.rows := by
  rw [tipAfter_eq_getLast, tip]
  cases t.rows.getLast? <;> rfl

theorem integrityScan_of_linked {expected : Option String} {rows : List AuditRow}
    (h : Linked (fun prev r => r.record.prevEventHash = prev) (fun r => some r.contentHash)
      expected rows) : integrityScan expected rows = [] := by
  induction rows generalizing expected with
  | nil => rfl
  | cons r rs ih =>
    obtain ⟨hprev, hrest⟩ := h
    rw [integrityScan, if_neg (fun hbad => hbad.2 hprev), ih hrest]

theorem AuditTable.Chained.chainIntegrity {t : AuditTable} (h : t.Chained) : t.chainIntegrity = [] :=
  integrityScan_of_linked h

theorem chainToPrevious_prevEventHash {r r' : AuditRecord} {prev : Option String}
    (h : chainToPrevious r prev = some r') : r'.prevEventHash = prev := by
  obtain ⟨hash, _, rfl⟩ := Option.map_eq_some_iff.mp h
  rfl

theorem writeViaPsql_rows {red : Redaction} {t t' : AuditTable} {record : AuditRecord}
    (h : writeViaPsql red t record = some t') :
    ∃ row, t'.rows = t.rows ++ [row] ∧ row.record.prevEventHash = record.prevEventHash := by
  obtain ⟨r, hr, hinsert⟩ := Option.bind_eq_some_iff.mp h
  have hprev : r.prevEventHash = record.prevEventHash := by
    unfold prepare at hr
    split at hr
    · exact applyRedaction_prevEventHash hr
    · rw [← Option.some.inj hr]
  split at hinsert
  · contradiction
  · rename_i hash hhash
    obtain rfl := Option.some.inj hinsert
    exact ⟨⟨t.nextId, r, hash, hhash⟩, rfl, hprev⟩

theorem AuditSystem.step_rows {red : Redaction} {s s' : AuditSystem} {e : AuditEvent}
    (h : s.step red e = some s') :
    s'.table.rows = s.table.rows ∨
      ∃ i eventUuid now session link row, e = .insert i eventUuid now ∧
        s.sessions[i]? = some session ∧ session.link = some link ∧
        s'.table.rows = s.table.rows ++ [row] ∧ row.record.prevEventHash = link := by
  cases e with
  | readTip i =>
    simp only [step] at h
    split at h
    · obtain rfl := Option.some.inj h
      exact Or.inl rfl
    · contradiction
  | readTipFails i =>
    simp only [step] at h
    split at h
    · obtain rfl := Option.some.inj h
      exact Or.inl rfl
    · contradiction
  | insert i eventUuid now =>
    obtain ⟨session, hsession, h⟩ := Option.bind_eq_some_iff.mp h
    obtain ⟨link, hlink, h⟩ := Option.bind_eq_some_iff.mp h
    split at h
    · rename_i t ht
      obtain rfl := Option.some.inj h
      obtain ⟨chained, hchained, hwrite⟩ := Option.bind_eq_some_iff.mp ht
      obtain ⟨row, hrows, hprev⟩ := writeViaPsql_rows hwrite
      exact Or.inr ⟨i, eventUuid, now, session, link, row, rfl, hsession, hlink, hrows,
        hprev.trans (chainToPrevious_prevEventHash hchained)⟩
    · obtain rfl := Option.some.inj h
      exact Or.inl rfl
  | insertFails i idDrawn =>
    obtain ⟨session, hsession, h⟩ := Option.bind_eq_some_iff.mp h
    obtain ⟨link, hlink, rfl⟩ := Option.map_eq_some_iff.mp h
    cases idDrawn <;> exact Or.inl rfl

/-- A dispatcher inserts while the tip it read is still the tip, the other two
writers only into an empty table. -/
def InsertsAtTip (s : AuditSystem) : AuditEvent → Prop
  | .insert i _ _ => ∀ session ∈ s.sessions[i]?,
    match session.call, session.stage with
    | .build _, .tipRead tip => tip = s.table.tip
    | .build _, _ => True
    | _, _ => s.table.rows = []
  | _ => True

theorem InsertsAtTip.link_eq {s : AuditSystem} {i : Nat} {eventUuid : Uuid} {now : Wall}
    (h : InsertsAtTip s (.insert i eventUuid now)) {session : WriteSession}
    (hsession : s.sessions[i]? = some session) {link : Option String}
    (hlink : session.link = some link) : link = s.table.tip := by
  have hcond := h session hsession
  obtain ⟨call, stage⟩ := session
  cases call with
  | build a =>
    cases stage with
    | tipRead tip => exact (Option.some.inj hlink).symm.trans hcond
    | start | done => contradiction
  | auditor a | kg a =>
    cases stage with
    | start =>
      rw [← Option.some.inj hlink, AuditTable.tip, (hcond : s.table.rows = [])]
      rfl
    | tipRead | done => contradiction

theorem AuditTable.Chained.step {red : Redaction} {s s' : AuditSystem} {e : AuditEvent}
    (h : s.table.Chained) (hfresh : InsertsAtTip s e) (hstep : s.step red e = some s') :
    s'.table.Chained := by
  rcases AuditSystem.step_rows hstep with
    hrows | ⟨i, eventUuid, now, session, link, row, rfl, hsession, hlink, hrows, hprev⟩
  · rw [Chained, hrows]
    exact h
  · rw [Chained, hrows, linked_concat, ← tip_eq_tipAfter, hprev]
    exact ⟨h, hfresh.link_eq hsession hlink⟩

/-- A step of the system that does not insert past a tip it has not seen. -/
def TipStep (red : Redaction) (s : AuditSystem) (e : AuditEvent) (s' : AuditSystem) : Prop :=
  InsertsAtTip s e ∧ s.step red e = some s'

/-- Along every run whose inserts happen at the tip, every row names the row
before it and the view is empty. -/
theorem audit_chain_intact {red : Redaction} {calls : List WriteCall} {events : List AuditEvent}
    {s : AuditSystem} (h : Run (TipStep red) (.start calls) events s) :
    s.table.Chained ∧ s.table.chainIntegrity = [] := by
  have hchained : s.table.Chained := by
    refine h.invariant (I := fun _ s => s.table.Chained) trivial ?_
    intro _ s s' e hs hstep
    exact hs.step hstep.1 hstep.2
  exact ⟨hchained, hchained.chainIntegrity⟩

/-! ## Two runs -/

theorem WriteCall.record_ts (call : WriteCall) (eventUuid : Uuid) (now : Wall) :
    (call.record eventUuid now).ts = now.inUtc := by
  cases call <;> rfl

theorem chainToPrevious_utc {r : AuditRecord} {now : Wall} (hts : r.ts = now.inUtc)
    (prev : Option String) :
    ∃ r' hash, chainToPrevious r prev = some r' ∧ r'.contentHash = some hash ∧ hash ≠ "" := by
  have hhash : computeContentHash { r with prevEventHash := prev, contentHash := none } =
      some (hexdigest
        (({ r with prevEventHash := prev, contentHash := none } : AuditRecord).canonical now)) := by
    rw [computeContentHash, hts, Wall.astimezoneUtc_inUtc, Option.map_some]
  rw [chainToPrevious, hhash]
  exact ⟨_, _, rfl, rfl, hexdigest_ne_empty _⟩

theorem AuditSystem.step_insert {s : AuditSystem} {i : Nat} {session : WriteSession}
    {link : Option String} (hsession : s.sessions[i]? = some session)
    (hlink : session.link = some link) (eventUuid : Uuid) (now : Wall) :
    ∃ t row, s.step ⟨[], false⟩ (.insert i eventUuid now) =
        some { s.setStage i session (.done true) with table := t } ∧
      t.rows = s.table.rows ++ [row] ∧ row.eventId = s.table.nextId ∧
      t.nextId = s.table.nextId + 1 ∧
      row.record.prevEventHash = link ∧ row.contentHash ≠ "" := by
  obtain ⟨chained, hash, hchained, hhash, hne⟩ :=
    chainToPrevious_utc (session.call.record_ts eventUuid now) link
  refine ⟨s.table.insert chained hash hhash, ⟨s.table.nextId, chained, hash, hhash⟩, ?_, rfl, rfl,
    rfl, chainToPrevious_prevEventHash hchained, hne⟩
  have hwrite : writeViaPsql ⟨[], false⟩ s.table chained = some (s.table.insert chained hash hhash) := by
    simp only [writeViaPsql, prepare, Bool.false_eq_true, if_false, Option.bind_some]
    split
    · rename_i hnone
      rw [hhash] at hnone
      contradiction
    · rename_i hash' hhash'
      obtain rfl := Option.some.inj (hhash.symm.trans hhash')
      rfl
  simp only [step, hsession, hlink, hchained, hwrite, Option.bind_some]

def unfilteredQuery : WriteCall :=
  .kg ⟨"kg_query", "demo", ⟨[("tool", .str "graph_query"), ("result", .str "no_filter")],
    by simp [Value.Distinct, DistinctMembers]⟩⟩

def buildDispatched : WriteCall :=
  .build ⟨"build_dispatched", 7, "orchestrator", ⟨[], distinct_empty⟩,
    none, some "build:7", "build", "build_in_progress"⟩

def firstInsert : AuditEvent := .insert 0 ⟨1, 0, 0, 0, 0⟩ ⟨0, zero_lt_maxWall⟩

def secondInsert : AuditEvent := .insert 1 ⟨2, 0, 0, 0, 0⟩ ⟨1, one_lt_maxWall⟩

/-- The query audits into the empty table, then the dispatcher reads the tip and inserts. -/
theorem audit_chain_intact_query_dispatch :
    ∃ s : AuditSystem,
      s.table.rows.length = 2 ∧ s.table.Chained ∧ s.table.chainIntegrity = [] := by
  obtain ⟨t, row, hfirst, hrows, _, _, _, hne⟩ :=
    AuditSystem.step_insert (s := .start [unfilteredQuery, buildDispatched]) (i := 0) rfl rfl
      ⟨1, 0, 0, 0, 0⟩ ⟨0, by decide⟩
  obtain ⟨t', row', hsecond, hrows', _⟩ :=
    AuditSystem.step_insert (i := 1) (s := ⟨t, [⟨unfilteredQuery, .done true⟩,
      ⟨buildDispatched, .tipRead (tipOrNone t.tip)⟩]⟩) rfl rfl ⟨2, 0, 0, 0, 0⟩ ⟨1, by decide⟩
  have hstart : TipStep ⟨[], false⟩ (.start [unfilteredQuery, buildDispatched]) firstInsert
      ⟨t, [⟨unfilteredQuery, .done true⟩, ⟨buildDispatched, .start⟩]⟩ := by
    refine ⟨fun session hsession => ?_, hfirst⟩
    obtain rfl := Option.some.inj hsession
    rfl
  have hread : TipStep ⟨[], false⟩ ⟨t, [⟨unfilteredQuery, .done true⟩, ⟨buildDispatched, .start⟩]⟩
      (.readTip 1) ⟨t, [⟨unfilteredQuery, .done true⟩, ⟨buildDispatched, .tipRead (tipOrNone t.tip)⟩]⟩ :=
    ⟨trivial, rfl⟩
  have hinsert : TipStep ⟨[], false⟩ ⟨t, [⟨unfilteredQuery, .done true⟩,
      ⟨buildDispatched, .tipRead (tipOrNone t.tip)⟩]⟩ secondInsert
      ⟨t', [⟨unfilteredQuery, .done true⟩, ⟨buildDispatched, .done true⟩]⟩ := by
    refine ⟨fun session hsession => ?_, hsecond⟩
    obtain rfl := Option.some.inj hsession
    show tipOrNone t.tip = t.tip
    simp [AuditTable.tip, hrows, tipOrNone, hne]
  refine ⟨_, ?_, audit_chain_intact (((Run.start.snoc hstart).snoc hread).snoc hinsert)⟩
  have hlength := congrArg List.length hrows'
  rw [List.length_append, hrows] at hlength
  exact hlength

/-- The second of two queries does not name the first. -/
theorem second_query_breaks_audit_chain :
    ¬ ∀ (red : Redaction) (calls : List WriteCall) (events : List AuditEvent) (s : AuditSystem),
      Run (fun s e s' => s.step red e = some s') (AuditSystem.start calls) events s →
        s.table.chainIntegrity = [] := by
  intro h
  obtain ⟨t, row, hfirst, hrows, _, hnext, _⟩ :=
    AuditSystem.step_insert (s := .start [unfilteredQuery, unfilteredQuery]) (i := 0) rfl rfl
      ⟨1, 0, 0, 0, 0⟩ ⟨0, by decide⟩
  obtain ⟨t', row', hsecond, hrows', hid', _, hprev, _⟩ :=
    AuditSystem.step_insert (i := 1) (s := ⟨t, [⟨unfilteredQuery, .done true⟩,
      ⟨unfilteredQuery, .start⟩]⟩) rfl rfl ⟨2, 0, 0, 0, 0⟩ ⟨1, by decide⟩
  have hview : t'.chainIntegrity = [] :=
    h ⟨[], false⟩ [unfilteredQuery, unfilteredQuery] _ _ (.snoc (.snoc .start hfirst) hsecond)
  have hpair : t'.rows = [row, row'] := by
    rw [hrows', hrows]
    rfl
  have hlate : 1 < row'.eventId := by
    rw [hid', hnext]
    decide
  have hbroken : integrityScan (some row.contentHash) [row'] = [row'] := by
    rw [integrityScan, if_pos ⟨hlate, by rw [hprev]; exact nofun⟩, integrityScan]
  rw [AuditTable.chainIntegrity, hpair, integrityScan, hbroken] at hview
  split at hview <;> cases hview

end SpineFormal.Audit
