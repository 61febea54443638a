import SpineFormal.Base.IsoFormat
import SpineFormal.Base.KeyedTable
import SpineFormal.Json.Jsonb
import SpineFormal.Json.Loads
import SpineFormal.Migration.ImportState

/-!
# Ingesting a cost line

`ingest_cost_line` of `db/watcher/spine_watcher.py` over the five tables it writes,
as V1, V3, V9 and V11 define them. All statements of a line are one transaction:
either every table takes its row or the database is as it was.

Team, worker, assignment and cost row each have a key on which a second insert
does nothing. The event has none, so only a line that never commits can be
ingested again without a trace.
-/

namespace SpineFormal.Watcher

open Json
set_option autoImplicit false

/-! ## The line -/

inductive NumberError where
  /-- `TypeError` or `ValueError`. -/
  | invalid
  /-- `OverflowError`. -/
  | overflow

/-- What the ingest leaves to Python's `float` and `uuid`, and to the column types. -/
structure Session where
  /-- `uuid.uuid5(SPINE_NS, name)`. -/
  uuid5 : String → Uuid
  /-- `uuid.UUID(text)` raises nothing. -/
  isUuid : String → Bool
  /-- `float(v)`. -/
  pyFloat : Value → Except NumberError PyFloat
  /-- The instant a `timestamptz` column keeps; a naive value is in the session's zone. -/
  timestamptz : DateTime → Int
  /-- `numeric(14, 6)`. -/
  costNumeric : PyFloat → Option PyFloat
  /-- Input conversion of `uuid`. -/
  uuidInput : String → Option Uuid
  /-- `role_id` order in the database's collation. -/
  collate : String → String → Bool

structure CostLine where
  ts : DateTime
  role : String
  mode : String
  slot : String
  phase : String
  tier : String
  wallS : PyFloat
  rc : Int
  hostId : String
  instanceId : String
  tokensIn : Int
  tokensOut : Int
  costUsd : PyFloat
  rawModelId : Option String
  engagementId : Option String
  idempotencyKey : Option String
  tenantId : String
  obj : Members

def costRequiredFields : List String :=
  ["ts", "role", "mode", "slot", "phase", "tier", "wall_s", "rc", "outcome", "host_id",
    "instance_id"]

/-- `_parse_ts`. -/
def parseTs (s : List Char) : Option DateTime :=
  fromisoformat (if s.getLast? = some 'Z' then s.dropLast ++ "+00:00".toList else s)

/-- A text value stripped and cut, or nothing if that leaves no text. -/
def strippedText (limit : Nat) : Option Value → Option String
  | some (.str s) =>
    let raw := trimBy pySpace s.toList
    if raw = [] then none else some (String.ofList (raw.take limit))
  | _ => none

/-- `_parse_idempotency_key`. -/
def parseIdempotencyKey (obj : Members) : Option String :=
  strippedText 256 (lookup obj "idempotency_key")

/-- `_parse_tenant_id`. -/
def parseTenantId (obj : Members) : String :=
  (strippedText 64 (lookup obj "tenant_id")).getD "default"

/-- `_opt_int`; `none` is an exception it lets through. -/
def optInt (obj : Members) (key : String) : Option Int :=
  match lookup obj key with
  | some (.float (.inf _)) => none
  | some v => some ((Migration.pyInt v).getD 0)
  | none => some 0

/-- A text value of a required field. -/
def textField (obj : Members) (key : String) : Option String :=
  match lookup obj key with
  | some (.str s) => some s
  | _ => none

/-- `obj.get("model_id") or None`, without blank text. -/
def parseModelId (obj : Members) : Option (Option String) :=
  match lookup obj "model_id" with
  | some (.str s) => some (if trimBy pySpace s.toList = [] then none else some s)
  | some v => if Migration.truthy v then none else some none
  | none => some none

section
variable (S : Session)

/-- `_parse_engagement_id`. -/
def parseEngagementId (obj : Members) : Option String :=
  match lookup obj "engagement_id" with
  | some (.str s) => if trimBy pySpace s.toList ≠ [] ∧ S.isUuid s then some s else none
  | _ => none

/-- `_opt_float`; `none` is an exception it lets through. -/
def optFloat (obj : Members) (key : String) : Option PyFloat :=
  match lookup obj key with
  | none | some .null => some (.zero false)
  | some v =>
    match S.pyFloat v with
    | .ok x => some x
    | .error .invalid => some (.zero false)
    | .error .overflow => none

/-- The values `ingest_cost_line` reads; `none` when the document is no cost line. -/
def costFields (doc : Value) : Option CostLine := do
  let .obj obj := doc | none
  if costRequiredFields.any fun f => lookup obj f |>.isNone then none
  let ts ← parseTs (← textField obj "ts").toList
  let wallS ← lookup obj "wall_s" >>= fun v => (S.pyFloat v).toOption
  let rc ← lookup obj "rc" >>= Migration.pyInt
  return {
    ts, wallS, rc, obj
    role := ← textField obj "role"
    mode := ← textField obj "mode"
    slot := ← textField obj "slot"
    phase := ← textField obj "phase"
    tier := ← textField obj "tier"
    hostId := ← textField obj "host_id"
    instanceId := ← textField obj "instance_id"
    tokensIn := ← optInt obj "tokens_in"
    tokensOut := ← optInt obj "tokens_out"
    costUsd := ← optFloat S obj "cost_usd"
    rawModelId := ← parseModelId obj
    engagementId := parseEngagementId S obj
    idempotencyKey := parseIdempotencyKey obj
    tenantId := parseTenantId obj }

def costLine (line : List Char) : Option CostLine := (loadsText line).bind (costFields S)

theorem costLine_encode (doc : Value) : costLine S (encode doc) = costFields S doc.dicts := by
  rw [costLine, loadsText_encode]
  rfl

end

/-! ## The tables -/

inductive WorkerStatus where
  | active | idle | stopped

inductive AssignmentStatus where
  | active | done | abandoned | failed
  deriving DecidableEq

structure TeamRow where
  teamId : Uuid
  name : String
  tenantId : String
  createdAt : Int

structure WorkerRow where
  workerId : Uuid
  teamId : Uuid
  roleId : String
  handle : String
  hostId : String
  instanceId : String
  status : WorkerStatus
  tenantId : String
  createdAt : Int

structure AssignmentRow where
  assignmentId : Uuid
  workerId : Uuid
  status : AssignmentStatus
  hostId : String
  instanceId : String
  idempotencyKey : Option String
  tenantId : String
  startedAt : Int
  updatedAt : Int

structure CostRow where
  assignmentId : Uuid
  ts : Int
  tierId : Option String
  mode : String
  phase : String
  wallS : PyFloat
  rc : Int
  tokensIn : Int
  tokensOut : Int
  costUsd : PyFloat
  modelId : Option String
  engagementId : Option Uuid
  tenantId : String

/-- `PRIMARY KEY (assignment_id, ts)`. -/
def CostRow.key (r : CostRow) : Uuid × Int := (r.assignmentId, r.ts)

structure EventRow where
  ts : Int
  type : String
  teamId : Uuid
  workerId : Uuid
  assignmentId : Uuid
  payloadJson : Value
  engagementId : Option Uuid
  tenantId : String

structure RoleRow where
  roleId : String
  familyId : String

/-- The tables a cost line is written to, and the lookup tables it is checked against. -/
structure Database where
  team : List TeamRow
  worker : List WorkerRow
  assignment : List AssignmentRow
  costRow : List CostRow
  event : List EventRow
  role : List RoleRow
  model : List String
  tier : List String
  engagement : List Uuid

inductive PgError where
  | uniqueViolation
  | foreignKeyViolation
  /-- A value its column does not take. -/
  | dataError

/-- A statement goes on or fails. -/
def check (p : Prop) [Decidable p] (e : PgError) : Except PgError Unit :=
  if p then .ok () else .error e

/-- No text parameter holds a NUL. -/
def bindTexts (texts : List String) : Except PgError Unit :=
  check (∀ s ∈ texts, NoNul s) .dataError

/-! ## `resolve_org_ids` -/

section
variable (S : Session)

def teamNameDefault : String := "default"

def teamUuid (name : String) : Uuid := S.uuid5 ("https://spine.local/team/" ++ name)

def workerUuid (hostId instanceId team handle : String) : Uuid :=
  S.uuid5 ("https://spine.local/worker/" ++ hostId ++ "/" ++ instanceId ++ "/" ++ team ++ "/" ++
    handle)

def assignmentUuid (workerId : Uuid) (day : List Char) : Uuid :=
  S.uuid5 ("https://spine.local/assignment/" ++ String.ofList workerId.text ++ "/" ++
    String.ofList day)

/-- `ts.date().isoformat()`. -/
def dateText : DateTime → List Char
  | .naive w => w.calendar.dateText
  | .aware a => a.wall.calendar.dateText

def CostLine.handle (l : CostLine) : String :=
  if l.slot ≠ "" ∧ l.slot ≠ "-" then l.role ++ "-" ++ l.slot else l.role ++ "-manager"

/-- `resolve_role_id`: the role itself, or the first of its job family, the bare one before
others. -/
def resolveRoleId (db : Database) (daemonRole : String) : Option String :=
  if db.role.any (·.roleId == daemonRole) then some daemonRole
  else
    let family := db.role.filter (·.familyId == daemonRole)
    let bare := family.filter fun r => r.roleId == r.familyId
    let ranked := if bare = [] then family else bare
    ((ranked.map RoleRow.roleId).mergeSort S.collate).head?

/-- `resolve_model_id`. -/
def resolveModelId (db : Database) (modelId : Option String) : Option String :=
  modelId.filter fun m => db.model.contains m

def HasDefaultTeam (db : Database) : Prop := ∃ t ∈ db.team, t.name = teamNameDefault

def TeamIdUsed (db : Database) : Prop := ∃ t ∈ db.team, t.teamId = teamUuid S teamNameDefault

instance (db : Database) : Decidable (HasDefaultTeam db) :=
  inferInstanceAs (Decidable (∃ t ∈ _, _))

instance (db : Database) : Decidable (TeamIdUsed S db) :=
  inferInstanceAs (Decidable (∃ t ∈ _, _))

/-- `INSERT INTO team ... ON CONFLICT (name) DO NOTHING`. -/
def insertTeam (now : Int) (tenantId : String) (db : Database) : Except PgError Database := do
  bindTexts [tenantId]
  if HasDefaultTeam db then return db
  check (¬ TeamIdUsed S db) .uniqueViolation
  return { db with
    team := db.team ++ [⟨teamUuid S teamNameDefault, teamNameDefault, tenantId, now⟩] }

def selectWorker (db : Database) (tid : Uuid) (handle : String) : Option WorkerRow :=
  db.worker.find? fun w => w.teamId == tid && w.handle == handle

def WorkerIdUsed (db : Database) (wid : Uuid) : Prop := ∃ w ∈ db.worker, w.workerId = wid

instance (db : Database) (wid : Uuid) : Decidable (WorkerIdUsed db wid) :=
  inferInstanceAs (Decidable (∃ w ∈ _, _))

/-- `INSERT INTO worker ... ON CONFLICT (team_id, handle) DO NOTHING`. -/
def insertWorker (now : Int) (l : CostLine) (roleId : String) (db : Database) :
    Except PgError Database := do
  let tid := teamUuid S teamNameDefault
  let wid := workerUuid S l.hostId l.instanceId teamNameDefault l.handle
  bindTexts [l.handle, l.hostId, l.instanceId, l.tenantId]
  if (selectWorker db tid l.handle).isSome then return db
  check (¬ WorkerIdUsed db wid) .uniqueViolation
  check (TeamIdUsed S db) .foreignKeyViolation
  return { db with
    worker := db.worker ++
      [⟨wid, tid, roleId, l.handle, l.hostId, l.instanceId, .idle, l.tenantId, now⟩] }

/-- The worker of a line: the row under its handle, or the id of a new one. -/
def workerOf (db : Database) (l : CostLine) : Uuid :=
  match selectWorker db (teamUuid S teamNameDefault) l.handle with
  | some w => w.workerId
  | none => workerUuid S l.hostId l.instanceId teamNameDefault l.handle

def assignmentOf (db : Database) (l : CostLine) : Uuid :=
  assignmentUuid S (workerOf S db l) (dateText l.ts)

/-- Another row of the worker has the key: `UNIQUE (worker_id, idempotency_key)`. -/
def KeyTaken (rows : List AssignmentRow) (aid wid : Uuid) (key : String) : Prop :=
  ∃ b ∈ rows, b.assignmentId ≠ aid ∧ b.workerId = wid ∧ b.idempotencyKey = some key

instance (rows : List AssignmentRow) (aid wid : Uuid) (key : String) :
    Decidable (KeyTaken rows aid wid key) := inferInstanceAs (Decidable (∃ b ∈ rows, _))

/-- The partial index `assignment_one_active_per_instance`. -/
def InstanceActive (rows : List AssignmentRow) (wid : Uuid) (instanceId : String) : Prop :=
  ∃ b ∈ rows, b.workerId = wid ∧ b.instanceId = instanceId ∧ b.status = .active

instance (rows : List AssignmentRow) (wid : Uuid) (instanceId : String) :
    Decidable (InstanceActive rows wid instanceId) := inferInstanceAs (Decidable (∃ b ∈ rows, _))

/-- `DO UPDATE SET idempotency_key = COALESCE(...)` on the row `aid`; the trigger sets
`updated_at`. -/
def AssignmentRow.withKey (now : Int) (key : String) (aid : Uuid) (a : AssignmentRow) :
    AssignmentRow :=
  if a.assignmentId = aid then
    { a with idempotencyKey := a.idempotencyKey.or (some key), updatedAt := now }
  else a

/-- `INSERT INTO assignment ... ON CONFLICT (assignment_id)`: with a key the old row takes
it if it has none, without one nothing is done. -/
def upsertAssignment (now : Int) (l : CostLine) (wid aid : Uuid) (db : Database) :
    Except PgError Database := do
  bindTexts ([l.hostId, l.instanceId, l.tenantId] ++ l.idempotencyKey.toList)
  match db.assignment.find? (·.assignmentId == aid), l.idempotencyKey with
  | some a, some key =>
    check (¬ KeyTaken db.assignment aid a.workerId (a.idempotencyKey.getD key)) .uniqueViolation
    return { db with assignment := db.assignment.map (AssignmentRow.withKey now key aid) }
  | some _, none => return db
  | none, key =>
    check (∀ k ∈ key, ¬ KeyTaken db.assignment aid wid k) .uniqueViolation
    check (¬ InstanceActive db.assignment wid l.instanceId) .uniqueViolation
    return { db with
      assignment := db.assignment ++
        [⟨aid, wid, .active, l.hostId, l.instanceId, key, l.tenantId, now, now⟩] }

/-! ## `_ingest_cost_body` -/

/-- `TIER_ID_MAP.get(tier)`. -/
def tierIdMap (tier : String) : Option String :=
  if tier ∈ ["low", "medium", "high"] then some tier else none

/-- The range of an `integer` column. -/
def FitsInteger (n : Int) : Prop := -2147483648 ≤ n ∧ n < 2147483648

instance (n : Int) : Decidable (FitsInteger n) := inferInstanceAs (Decidable (_ ∧ _))

/-- The cost row of a line; `none` when a column does not take its value. -/
def costRowOf (db : Database) (l : CostLine) (aid : Uuid) : Option CostRow := do
  let costUsd ← S.costNumeric l.costUsd
  let engagementId ← match l.engagementId with
    | none => some none
    | some e => (S.uuidInput e).map some
  if FitsInteger l.rc ∧ FitsInteger l.tokensIn ∧ FitsInteger l.tokensOut ∧ NoNul l.mode ∧
    NoNul l.phase ∧ ∀ m ∈ l.rawModelId, NoNul m then
    return ⟨aid, S.timestamptz l.ts, tierIdMap l.tier, l.mode, l.phase, l.wallS, l.rc, l.tokensIn,
      l.tokensOut, costUsd, resolveModelId db l.rawModelId, engagementId, l.tenantId⟩
  else none

/-- `INSERT INTO cost_row ... ON CONFLICT (assignment_id, ts) DO NOTHING`. -/
def insertCostRow (row : CostRow) (db : Database) : Except PgError Database := do
  if row.key ∈ db.costRow.map CostRow.key then return db
  check (∀ t ∈ row.tierId, t ∈ db.tier) .foreignKeyViolation
  check (∀ e ∈ row.engagementId, e ∈ db.engagement) .foreignKeyViolation
  return { db with costRow := db.costRow ++ [row] }

/-- `INSERT INTO event`: no conflict clause. -/
def insertEvent (event : EventRow) (obj : Members) (db : Database) : Except PgError Database := do
  check ((Value.obj obj).jsonbInput = true) .dataError
  check (∃ t ∈ db.team, t.teamId = event.teamId) .foreignKeyViolation
  check (∀ e ∈ event.engagementId, e ∈ db.engagement) .foreignKeyViolation
  return { db with event := db.event ++ [event] }

/-- The transaction of one line. -/
def ingestStatements (now : Int) (l : CostLine) (db : Database) : Except PgError Database := do
  let db ← insertTeam S now l.tenantId db
  bindTexts [l.role]
  match resolveRoleId S db l.role with
  | none => return db
  | some roleId =>
    let db ← insertWorker S now l roleId db
    let wid := workerOf S db l
    let aid := assignmentOf S db l
    let db ← upsertAssignment now l wid aid db
    let some row := costRowOf S db l aid | .error .dataError
    let db ← insertCostRow row db
    insertEvent ⟨row.ts, "IngestedCostRow", teamUuid S teamNameDefault, wid, aid,
      (Value.obj l.obj).jsonb, row.engagementId, l.tenantId⟩ l.obj db

inductive IngestResult where
  | done
  /-- `duplicate ingest avoided`. -/
  | duplicate
  | raised (e : PgError)

/-- A failed transaction leaves the database alone; with a key, a unique violation counts
as a retried line. -/
def ingest (now : Int) (l : CostLine) (db : Database) : Database × IngestResult :=
  match ingestStatements S now l db with
  | .ok db' => (db', .done)
  | .error .uniqueViolation =>
    (db, if l.idempotencyKey.isSome then .duplicate else .raised .uniqueViolation)
  | .error e => (db, .raised e)

/-- `ingest_cost_line`; `none` when the line is not a well-formed one. -/
def ingestCostLine (now : Int) (line : List Char) (db : Database) :
    Option (Database × IngestResult) :=
  (costLine S line).map fun l => ingest S now l db

/-! ## What each statement comes to -/

theorem bind_ok {α β : Type} {x : Except PgError α} {f : α → Except PgError β} {b : β} :
    x >>= f = .ok b ↔ ∃ a, x = .ok a ∧ f a = .ok b := by
  cases x with
  | error e => simp [bind, Except.bind]
  | ok a => simp [bind, Except.bind]

theorem check_ok {p : Prop} [Decidable p] {e : PgError} {u : Unit} : check p e = .ok u ↔ p := by
  by_cases h : p
  · simp [check, h]
  · simp [check, h]

theorem bindTexts_ok {texts : List String} {u : Unit} :
    bindTexts texts = .ok u ↔ ∀ s ∈ texts, NoNul s := check_ok

theorem pure_ok {α : Type} {a b : α} : (pure a : Except PgError α) = .ok b ↔ b = a :=
  ⟨fun h => (Except.ok.inj h).symm, fun h => congrArg Except.ok h.symm⟩

def teamRows (now : Int) (tenantId : String) (db : Database) : List TeamRow :=
  if HasDefaultTeam db then db.team
  else db.team ++ [⟨teamUuid S teamNameDefault, teamNameDefault, tenantId, now⟩]

def workerRows (now : Int) (l : CostLine) (roleId : String) (db : Database) : List WorkerRow :=
  if (selectWorker db (teamUuid S teamNameDefault) l.handle).isSome then db.worker
  else db.worker ++ [⟨workerUuid S l.hostId l.instanceId teamNameDefault l.handle,
    teamUuid S teamNameDefault, roleId, l.handle, l.hostId, l.instanceId, .idle, l.tenantId, now⟩]

def assignmentRows (now : Int) (l : CostLine) (wid aid : Uuid) (rows : List AssignmentRow) :
    List AssignmentRow :=
  match rows.find? (·.assignmentId == aid), l.idempotencyKey with
  | some _, some key => rows.map (AssignmentRow.withKey now key aid)
  | some _, none => rows
  | none, key => rows ++
      [⟨aid, wid, .active, l.hostId, l.instanceId, key, l.tenantId, now, now⟩]

/-- The line's row, or its key put on an older row, breaks a unique index of `assignment`. -/
def AssignmentClash (rows : List AssignmentRow) (aid wid : Uuid) (l : CostLine) : Prop :=
  match rows.find? (·.assignmentId == aid) with
  | some a => ∃ key ∈ l.idempotencyKey, KeyTaken rows aid a.workerId (a.idempotencyKey.getD key)
  | none =>
    (∃ key ∈ l.idempotencyKey, KeyTaken rows aid wid key) ∨ InstanceActive rows wid l.instanceId

theorem insertTeam_ok {now : Int} {tenantId : String} {db db' : Database} :
    insertTeam S now tenantId db = .ok db' ↔
      NoNul tenantId ∧ (TeamIdUsed S db → HasDefaultTeam db) ∧
        db' = { db with team := teamRows S now tenantId db } := by
  rw [insertTeam, teamRows]
  simp only [bind_ok, bindTexts_ok, List.forall_mem_singleton, exists_and_left, exists_const]
  refine and_congr_right fun _ => ?_
  by_cases hname : HasDefaultTeam db
  · simp only [hname, if_true, pure_ok, implies_true, true_and]
  · simp only [hname, if_false, bind_ok, check_ok, pure_ok, exists_and_left, exists_const,
      imp_false]

theorem insertWorker_ok {now : Int} {l : CostLine} {roleId : String} {db db' : Database} :
    insertWorker S now l roleId db = .ok db' ↔
      (∀ s ∈ [l.handle, l.hostId, l.instanceId, l.tenantId], NoNul s) ∧
      (selectWorker db (teamUuid S teamNameDefault) l.handle = none →
        ¬ WorkerIdUsed db (workerUuid S l.hostId l.instanceId teamNameDefault l.handle) ∧
          TeamIdUsed S db) ∧
      db' = { db with worker := workerRows S now l roleId db } := by
  rw [insertWorker, workerRows]
  simp only [bind_ok, bindTexts_ok, exists_and_left, exists_const]
  refine and_congr_right fun _ => ?_
  cases selectWorker db (teamUuid S teamNameDefault) l.handle with
  | some w =>
    simp only [Option.isSome_some, if_true, pure_ok, reduceCtorEq, false_implies, true_and]
  | none =>
    simp only [Option.isSome_none, Bool.false_eq_true, if_false, bind_ok, check_ok, pure_ok,
      exists_and_left, exists_const, forall_const, and_assoc]

theorem upsertAssignment_ok {now : Int} {l : CostLine} {wid aid : Uuid} {db db' : Database} :
    upsertAssignment now l wid aid db = .ok db' ↔
      (∀ s ∈ [l.hostId, l.instanceId, l.tenantId] ++ l.idempotencyKey.toList, NoNul s) ∧
      ¬ AssignmentClash db.assignment aid wid l ∧
        db' = { db with assignment := assignmentRows now l wid aid db.assignment } := by
  rw [upsertAssignment, AssignmentClash, assignmentRows, bind_ok]
  simp only [bindTexts_ok, exists_and_left, exists_const]
  refine and_congr_right fun _ => ?_
  cases db.assignment.find? (·.assignmentId == aid) with
  | some a =>
    cases l.idempotencyKey with
    | none => simp [pure_ok]
    | some key => simp only [bind_ok, check_ok, pure_ok, exists_and_left, exists_const,
        Option.mem_def, Option.some.injEq, exists_eq_left']
  | none =>
    simp only [bind_ok, check_ok, pure_ok, exists_and_left, exists_const, not_or, not_exists,
      not_and, and_assoc]

theorem insertCostRow_ok {row : CostRow} {db db' : Database} :
    insertCostRow row db = .ok db' ↔
      (row.key ∉ db.costRow.map CostRow.key →
        (∀ t ∈ row.tierId, t ∈ db.tier) ∧ ∀ e ∈ row.engagementId, e ∈ db.engagement) ∧
      db' = { db with costRow := insertNew CostRow.key db.costRow row } := by
  rw [insertCostRow, insertNew]
  by_cases hkey : row.key ∈ db.costRow.map CostRow.key
  · simp only [hkey, if_true, pure_ok, not_true, false_implies, true_and]
  · simp only [hkey, if_false, bind_ok, check_ok, pure_ok, exists_and_left, exists_const,
      not_false_iff, forall_const, and_assoc]

theorem insertEvent_ok {event : EventRow} {obj : Members} {db db' : Database} :
    insertEvent event obj db = .ok db' ↔
      (Value.obj obj).jsonbInput = true ∧ (∃ t ∈ db.team, t.teamId = event.teamId) ∧
        (∀ e ∈ event.engagementId, e ∈ db.engagement) ∧
        db' = { db with event := db.event ++ [event] } := by
  rw [insertEvent]
  simp only [bind_ok, check_ok, pure_ok, exists_and_left, exists_const]

/-! ## A whole line -/

def CostLine.texts (l : CostLine) : List String :=
  [l.tenantId, l.role, l.handle, l.hostId, l.instanceId] ++ l.idempotencyKey.toList

/-- Every statement of the line, whose role is known, succeeds. -/
structure Accepted (db : Database) (l : CostLine) : Prop where
  texts : ∀ s ∈ l.texts, NoNul s
  /-- The default team has the id derived from its name, and no other team has it. -/
  team : HasDefaultTeam db ↔ TeamIdUsed S db
  worker : selectWorker db (teamUuid S teamNameDefault) l.handle = none →
    ¬ WorkerIdUsed db (workerUuid S l.hostId l.instanceId teamNameDefault l.handle)
  assignment : ¬ AssignmentClash db.assignment (assignmentOf S db l) (workerOf S db l) l
  costRow : ∃ row, costRowOf S db l (assignmentOf S db l) = some row ∧
    (row.key ∉ db.costRow.map CostRow.key → ∀ t ∈ row.tierId, t ∈ db.tier) ∧
    ∀ e ∈ row.engagementId, e ∈ db.engagement
  payload : (Value.obj l.obj).jsonbInput = true

/-- What an accepted line leaves. -/
def withCostLine (now : Int) (l : CostLine) (roleId : String) (row : CostRow) (db : Database) :
    Database :=
  let wid := workerOf S db l
  let aid := assignmentOf S db l
  { db with
    team := teamRows S now l.tenantId db
    worker := workerRows S now l roleId db
    assignment := assignmentRows now l wid aid db.assignment
    costRow := insertNew CostRow.key db.costRow row
    event := db.event ++ [⟨row.ts, "IngestedCostRow", teamUuid S teamNameDefault, wid, aid,
      (Value.obj l.obj).jsonb, row.engagementId, l.tenantId⟩] }

theorem hasDefaultTeam_teamRows (now : Int) (tenantId : String) (db : Database) :
    HasDefaultTeam { db with team := teamRows S now tenantId db } := by
  rw [HasDefaultTeam, teamRows]
  split
  · assumption
  · exact ⟨_, List.mem_append_right _ (List.mem_singleton_self _), rfl⟩

theorem teamIdUsed_teamRows (now : Int) (tenantId : String) (db : Database) :
    TeamIdUsed S { db with team := teamRows S now tenantId db } ↔
      (HasDefaultTeam db → TeamIdUsed S db) := by
  rw [TeamIdUsed, teamRows]
  by_cases h : HasDefaultTeam db
  · simp [h, TeamIdUsed]
  · simp only [h, if_false, false_implies, iff_true]
    exact ⟨_, List.mem_append_right _ (List.mem_singleton_self _), rfl⟩

theorem workerOf_workerRows (now : Int) (l : CostLine) (roleId : String) (db : Database) :
    workerOf S { db with worker := workerRows S now l roleId db } l = workerOf S db l := by
  rw [workerOf, workerOf, workerRows]
  cases h : selectWorker db (teamUuid S teamNameDefault) l.handle with
  | some w =>
    have hsame : selectWorker { db with worker := db.worker } (teamUuid S teamNameDefault)
        l.handle = some w := h
    simp [hsame]
  | none =>
    simp only [selectWorker, Option.isSome_none, Bool.false_eq_true, if_false, List.find?_append]
    rw [selectWorker] at h
    simp [h]

theorem ingestStatements_unknown {l : CostLine} {db : Database}
    (hrole : resolveRoleId S db l.role = none) (now : Int) {db' : Database} :
    ingestStatements S now l db = .ok db' ↔
      (∀ s ∈ [l.tenantId, l.role], NoNul s) ∧ (TeamIdUsed S db → HasDefaultTeam db) ∧
        db' = { db with team := teamRows S now l.tenantId db } := by
  have hrole' : resolveRoleId S { db with team := teamRows S now l.tenantId db } l.role = none :=
    hrole
  simp only [ingestStatements, bind_ok, insertTeam_ok, bindTexts_ok, List.forall_mem_cons]
  constructor
  · rintro ⟨db₁, ⟨htenant, hteam, rfl⟩, -, hrole₁, h⟩
    rw [hrole'] at h
    exact ⟨⟨htenant, hrole₁⟩, hteam, pure_ok.mp h⟩
  · rintro ⟨⟨htenant, hrole₁⟩, hteam, rfl⟩
    refine ⟨_, ⟨htenant, hteam, rfl⟩, (), hrole₁, ?_⟩
    rw [hrole']
    rfl

theorem ingestStatements_known {l : CostLine} {db db' : Database} {roleId : String}
    (hrole : resolveRoleId S db l.role = some roleId) (now : Int) :
    ingestStatements S now l db = .ok db' ↔
      Accepted S db l ∧ ∃ row, costRowOf S db l (assignmentOf S db l) = some row ∧
        db' = withCostLine S now l roleId row db := by
  set db₁ : Database := { db with team := teamRows S now l.tenantId db } with hdb₁
  have hrole' : resolveRoleId S db₁ l.role = some roleId := hrole
  set db₂ : Database := { db₁ with worker := workerRows S now l roleId db₁ } with hdb₂
  have hwid : workerOf S db₂ l = workerOf S db l := workerOf_workerRows S now l roleId db₁
  have haid : assignmentOf S db₂ l = assignmentOf S db l := by
    rw [assignmentOf, hwid, assignmentOf]
  simp only [ingestStatements, bind_ok, insertTeam_ok, bindTexts_ok]
  constructor
  · rintro ⟨_, ⟨htenant, hteam, rfl⟩, -, hrole₁, h⟩
    rw [← hdb₁, hrole'] at h
    obtain ⟨_, h₂, h⟩ := bind_ok.mp h
    obtain ⟨htexts, hworker, rfl⟩ := (insertWorker_ok S).mp h₂
    rw [← hdb₂] at h
    obtain ⟨_, h₃, h⟩ := bind_ok.mp h
    obtain ⟨hkeys, hclash, rfl⟩ := upsertAssignment_ok.mp h₃
    rw [hwid, haid] at hclash h
    have hrow' : ∀ rows, costRowOf S { db₂ with assignment := rows } l (assignmentOf S db l) =
        costRowOf S db l (assignmentOf S db l) := fun _ => rfl
    rw [hrow'] at h
    cases hrow : costRowOf S db l (assignmentOf S db l) with
    | none =>
      rw [hrow] at h
      cases h
    | some row =>
      rw [hrow] at h
      obtain ⟨_, h₄, h₅⟩ := bind_ok.mp h
      obtain ⟨hfk, rfl⟩ := insertCostRow_ok.mp h₄
      obtain ⟨hpayload, hteamId, heng, rfl⟩ := insertEvent_ok.mp h₅
      have hused : HasDefaultTeam db → TeamIdUsed S db :=
        (teamIdUsed_teamRows S now l.tenantId db).mp hteamId
      refine ⟨⟨?_, ⟨hused, hteam⟩, fun hnone => (hworker hnone).1, hclash,
        ⟨row, hrow, fun hnew => (hfk hnew).1, heng⟩, hpayload⟩, row, rfl, ?_⟩
      · simp only [CostLine.texts, List.mem_append, List.mem_cons, List.not_mem_nil, or_false]
          at htenant hrole₁ htexts hkeys ⊢
        grind
      · rfl
  · rintro ⟨hacc, row, hrow, rfl⟩
    obtain ⟨row', hrow', htier, heng⟩ := hacc.costRow
    obtain rfl : row = row' := Option.some.inj (hrow.symm.trans hrow')
    have htexts := hacc.texts
    simp only [CostLine.texts, List.mem_append, List.mem_cons, List.not_mem_nil, or_false] at htexts
    refine ⟨db₁, ⟨htexts _ (by simp), hacc.team.mpr, rfl⟩, (), ?_, ?_⟩
    · simpa using htexts l.role (by simp)
    · rw [hrole']
      refine bind_ok.mpr ⟨db₂, (insertWorker_ok S).mpr ⟨?_, ?_, rfl⟩, ?_⟩
      · simp only [List.mem_cons, List.not_mem_nil, or_false]
        grind
      · exact fun hnone =>
          ⟨hacc.worker hnone, (teamIdUsed_teamRows S now l.tenantId db).mpr hacc.team.mp⟩
      · rw [hwid, haid]
        refine bind_ok.mpr ⟨_, upsertAssignment_ok.mpr ⟨?_, hacc.assignment, rfl⟩, ?_⟩
        · simp only [List.mem_append, List.mem_cons, List.not_mem_nil, or_false]
          grind
        · set aid := assignmentOf S db l
          have hrow₃ : costRowOf S { db₂ with
              assignment := assignmentRows now l (workerOf S db l) aid db₂.assignment } l aid =
              some row := hrow
          rw [hrow₃]
          refine bind_ok.mpr ⟨_, insertCostRow_ok.mpr ⟨fun hnew => ⟨htier hnew, heng⟩, rfl⟩, ?_⟩
          refine insertEvent_ok.mpr ⟨hacc.payload, ?_, heng, rfl⟩
          exact (teamIdUsed_teamRows S now l.tenantId db).mpr hacc.team.mp

/-! ## The same line again -/

theorem withKey_assignmentId (now : Int) (key : String) (aid : Uuid) (a : AssignmentRow) :
    (a.withKey now key aid).assignmentId = a.assignmentId := by
  rw [AssignmentRow.withKey]
  split <;> rfl

theorem keyTaken_withKey {rows : List AssignmentRow} {now : Int} {key key' : String}
    {aid wid : Uuid} (h : KeyTaken (rows.map (AssignmentRow.withKey now key aid)) aid wid key') :
    KeyTaken rows aid wid key' := by
  obtain ⟨_, hb, hne, htaken⟩ := h
  obtain ⟨b, hmem, rfl⟩ := List.mem_map.mp hb
  rw [withKey_assignmentId] at hne
  rw [AssignmentRow.withKey, if_neg hne] at htaken
  exact ⟨b, hmem, hne, htaken⟩

theorem find_withKey (rows : List AssignmentRow) (now : Int) (key : String) (aid : Uuid) :
    (rows.map (AssignmentRow.withKey now key aid)).find? (·.assignmentId == aid) =
      (rows.find? (·.assignmentId == aid)).map (AssignmentRow.withKey now key aid) := by
  rw [List.find?_map]
  congr 2
  funext b
  rw [Function.comp_apply, withKey_assignmentId]

/-- Once a line's assignment is there, the line finds it and asks for nothing new. -/
theorem not_assignmentClash_again {rows : List AssignmentRow} {aid wid : Uuid} {l : CostLine}
    (h : ¬ AssignmentClash rows aid wid l) (now : Int) :
    ¬ AssignmentClash (assignmentRows now l wid aid rows) aid wid l := by
  rw [AssignmentClash] at h
  rw [AssignmentClash, assignmentRows]
  cases hfind : rows.find? (·.assignmentId == aid) with
  | some a =>
    have hid : a.assignmentId = aid := by simpa using List.find?_some hfind
    cases hkey : l.idempotencyKey with
    | none => simp [hfind]
    | some key =>
      simp only [hfind, hkey, Option.mem_def, Option.some.injEq, exists_eq_left'] at h
      have hget : (a.withKey now key aid).idempotencyKey.getD key = a.idempotencyKey.getD key := by
        rw [AssignmentRow.withKey, if_pos hid]
        cases a.idempotencyKey <;> rfl
      have hworker : (a.withKey now key aid).workerId = a.workerId := by
        rw [AssignmentRow.withKey, if_pos hid]
      simp only [find_withKey, hfind, Option.map_some, Option.mem_def, Option.some.injEq,
        exists_eq_left', hget, hworker]
      exact fun htaken => h (keyTaken_withKey htaken)
  | none =>
    set new : AssignmentRow :=
      ⟨aid, wid, .active, l.hostId, l.instanceId, l.idempotencyKey, l.tenantId, now, now⟩ with hnew
    have hagain : (rows ++ [new]).find? (·.assignmentId == aid) = some new := by
      rw [List.find?_append, hfind]
      simp [hnew]
    simp only [hfind] at h
    dsimp only
    rw [hagain]
    rintro ⟨key, hkey, b, hb, hne, hwid, htaken⟩
    rcases List.mem_append.mp hb with hb | hb
    · refine h (.inl ⟨key, hkey, b, hb, hne, hwid, ?_⟩)
      rw [htaken, hnew]
      simp [Option.mem_def.mp hkey]
    · rw [List.mem_singleton.mp hb] at hne
      exact hne rfl

theorem selectWorker_workerRows (now : Int) (l : CostLine) (roleId : String) (db : Database) :
    selectWorker { db with worker := workerRows S now l roleId db } (teamUuid S teamNameDefault)
      l.handle ≠ none := by
  rw [selectWorker, workerRows]
  cases h : selectWorker db (teamUuid S teamNameDefault) l.handle with
  | some w =>
    rw [selectWorker] at h
    simp [h]
  | none => simp

theorem Accepted.again {l : CostLine} {db : Database} (h : Accepted S db l) (now : Int)
    (roleId : String) {row : CostRow} (hrow : costRowOf S db l (assignmentOf S db l) = some row) :
    Accepted S (withCostLine S now l roleId row db) l := by
  have hwid : workerOf S (withCostLine S now l roleId row db) l = workerOf S db l :=
    workerOf_workerRows S now l roleId db
  have haid : assignmentOf S (withCostLine S now l roleId row db) l = assignmentOf S db l := by
    rw [assignmentOf, hwid, assignmentOf]
  obtain ⟨row', hrow', -, heng⟩ := h.costRow
  obtain rfl : row = row' := Option.some.inj (hrow.symm.trans hrow')
  refine ⟨h.texts, ?_, ?_, ?_, ⟨row, ?_, ?_, heng⟩, h.payload⟩
  · exact iff_of_true (hasDefaultTeam_teamRows S now l.tenantId db)
      ((teamIdUsed_teamRows S now l.tenantId db).mpr h.team.mp)
  · exact fun hnone => absurd hnone (selectWorker_workerRows S now l roleId db)
  · rw [hwid, haid]
    exact not_assignmentClash_again h.assignment now
  · rw [haid]
    exact hrow
  · refine fun hnew => absurd ?_ hnew
    rw [withCostLine, insertNew]
    split
    · assumption
    · simp

theorem ingest_of_ok {now : Int} {l : CostLine} {db db' : Database}
    (h : ingestStatements S now l db = .ok db') : (ingest S now l db).1 = db' := by
  rw [ingest, h]

theorem ingest_of_error {now : Int} {l : CostLine} {db : Database}
    (h : ∀ db', ingestStatements S now l db ≠ .ok db') : (ingest S now l db).1 = db := by
  rw [ingest]
  cases hs : ingestStatements S now l db with
  | ok db' => exact absurd hs (h db')
  | error e => cases e <;> rfl

theorem ingest_accepted {l : CostLine} {db : Database} {roleId : String}
    (hrole : resolveRoleId S db l.role = some roleId) (hacc : Accepted S db l) (now : Int)
    {row : CostRow} (hrow : costRowOf S db l (assignmentOf S db l) = some row) :
    (ingest S now l db).1 = withCostLine S now l roleId row db :=
  ingest_of_ok S ((ingestStatements_known S hrole now).mpr ⟨hacc, row, hrow, rfl⟩)

theorem ingest_refused {l : CostLine} {db : Database} {roleId : String}
    (hrole : resolveRoleId S db l.role = some roleId) (href : ¬ Accepted S db l) (now : Int) :
    (ingest S now l db).1 = db :=
  ingest_of_error S fun _ hok => href ((ingestStatements_known S hrole now).mp hok).1

/-- A line of an unknown role leaves at most the team, and that only once. -/
theorem ingest_unknown_twice {l : CostLine} {db : Database}
    (hrole : resolveRoleId S db l.role = none) (now₁ now₂ : Int) :
    (ingest S now₂ l (ingest S now₁ l db).1).1 = (ingest S now₁ l db).1 := by
  by_cases hok : (∀ s ∈ [l.tenantId, l.role], NoNul s) ∧ (TeamIdUsed S db → HasDefaultTeam db)
  · set db₁ : Database := { db with team := teamRows S now₁ l.tenantId db } with hdb₁
    have hfirst : (ingest S now₁ l db).1 = db₁ :=
      ingest_of_ok S ((ingestStatements_unknown S hrole now₁).mpr ⟨hok.1, hok.2, rfl⟩)
    have hrole₁ : resolveRoleId S db₁ l.role = none := hrole
    have hteam : HasDefaultTeam db₁ := hasDefaultTeam_teamRows S now₁ l.tenantId db
    have hsame : db₁ = { db₁ with team := teamRows S now₂ l.tenantId db₁ } := by
      rw [teamRows, if_pos hteam]
    rw [hfirst]
    exact ingest_of_ok S
      ((ingestStatements_unknown S hrole₁ now₂).mpr ⟨hok.1, fun _ => hteam, hsame⟩)
  · have hrefused : ∀ now, (ingest S now l db).1 = db := fun now =>
      ingest_of_error S fun _ h => hok <| by
        obtain ⟨htexts, hteam, -⟩ := (ingestStatements_unknown S hrole now).mp h
        exact ⟨htexts, hteam⟩
    rw [hrefused, hrefused]

theorem ingest_twice_iff (l : CostLine) (db : Database) (now₁ now₂ : Int) :
    (ingest S now₂ l (ingest S now₁ l db).1).1 = (ingest S now₁ l db).1 ↔
      resolveRoleId S db l.role = none ∨ ¬ Accepted S db l := by
  cases hrole : resolveRoleId S db l.role with
  | none => exact iff_of_true (ingest_unknown_twice S hrole now₁ now₂) (.inl rfl)
  | some roleId =>
    by_cases hacc : Accepted S db l
    · obtain ⟨row, hrow, -⟩ := hacc.costRow
      have hagain := hacc.again S now₁ roleId hrow
      obtain ⟨row', hrow', -⟩ := hagain.costRow
      have hrole' : resolveRoleId S (withCostLine S now₁ l roleId row db) l.role = some roleId :=
        hrole
      rw [ingest_accepted S hrole hacc now₁ hrow, ingest_accepted S hrole' hagain now₂ hrow']
      -- the second event is one more
      refine iff_of_false (fun h => ?_) (by simp [hacc])
      have hlen := congrArg (fun d : Database => d.event.length) h
      simp [withCostLine] at hlen
    · rw [ingest_refused S hrole hacc, ingest_refused S hrole hacc]
      exact iff_of_true rfl (.inr hacc)

/-! ## The rows of two lines -/

/-- The cost row of a line in the state it is ingested in. -/
def rowOf (db : Database) (l : CostLine) : Option CostRow := costRowOf S db l (assignmentOf S db l)

/-- The line's row is there before it, or the line is accepted and its key is free. -/
def Kept (db : Database) (l : CostLine) (row : CostRow) : Prop :=
  row ∈ db.costRow ∨ (Accepted S db l ∧ row.key ∉ db.costRow.map CostRow.key)

theorem mem_costRow_ingest {l : CostLine} {db : Database} {roleId : String}
    (hrole : resolveRoleId S db l.role = some roleId) (now : Int) {row : CostRow}
    (hrow : rowOf S db l = some row) (r : CostRow) :
    r ∈ (ingest S now l db).1.costRow ↔
      r ∈ db.costRow ∨ (r = row ∧ Accepted S db l ∧ row.key ∉ db.costRow.map CostRow.key) := by
  by_cases hacc : Accepted S db l
  · rw [ingest_accepted S hrole hacc now hrow, withCostLine, mem_insertNew_iff]
    simp [hacc]
  · rw [ingest_refused S hrole hacc]
    simp [hacc]

theorem resolveRoleId_ingest {l : CostLine} {db : Database} (now : Int) (role : String)
    (hrole : (resolveRoleId S db l.role).isSome) :
    resolveRoleId S (ingest S now l db).1 role = resolveRoleId S db role := by
  obtain ⟨roleId, hrole⟩ := Option.isSome_iff_exists.mp hrole
  by_cases hacc : Accepted S db l
  · obtain ⟨row, hrow, -⟩ := hacc.costRow
    rw [ingest_accepted S hrole hacc now hrow]
    rfl
  · rw [ingest_refused S hrole hacc]

/-- `cost_row` holds a row for each of two lines ingested one after the other. -/
def HoldsRowOfEach (db db₁ db₂ : Database) (l₁ l₂ : CostLine) : Prop :=
  ∃ row₁ row₂, rowOf S db l₁ = some row₁ ∧ rowOf S db₁ l₂ = some row₂ ∧ row₁.key ≠ row₂.key ∧
    row₁ ∈ db₂.costRow ∧ row₂ ∈ db₂.costRow

theorem holdsRowOfEach_iff {l₁ l₂ : CostLine} {db : Database} {now₁ now₂ : Int}
    (hrole₁ : (resolveRoleId S db l₁.role).isSome) (hrole₂ : (resolveRoleId S db l₂.role).isSome) :
    let db₁ := (ingest S now₁ l₁ db).1
    HoldsRowOfEach S db db₁ (ingest S now₂ l₂ db₁).1 l₁ l₂ ↔
      ∃ row₁ row₂, rowOf S db l₁ = some row₁ ∧ rowOf S db₁ l₂ = some row₂ ∧
        row₁.key ≠ row₂.key ∧ Kept S db l₁ row₁ ∧ Kept S db₁ l₂ row₂ := by
  intro db₁
  obtain ⟨roleId₁, hknown₁⟩ := Option.isSome_iff_exists.mp hrole₁
  obtain ⟨roleId₂, hknown₂⟩ := Option.isSome_iff_exists.mp hrole₂
  rw [← resolveRoleId_ingest S now₁ l₂.role hrole₁] at hknown₂
  refine exists_congr fun row₁ => exists_congr fun row₂ => and_congr_right fun hrow₁ =>
    and_congr_right fun hrow₂ => and_congr_right fun hne => ?_
  have hrows : row₁ ≠ row₂ := fun h => hne (congrArg CostRow.key h)
  -- the second line can only add its own row, which is not the first one's
  rw [mem_costRow_ingest S hknown₂ now₂ hrow₂, mem_costRow_ingest S hknown₂ now₂ hrow₂,
    mem_costRow_ingest S hknown₁ now₁ hrow₁, Kept, Kept]
  simp only [hrows, false_and, or_false, true_and]
  exact Iff.rfl

/-- The database after a call; one that raises on the line itself changes nothing. -/
def afterLine (now : Int) (line : List Char) (db : Database) : Database :=
  ((ingestCostLine S now line db).map Prod.fst).getD db

theorem afterLine_eq {line : List Char} {l : CostLine} (h : costLine S line = some l) (now : Int)
    (db : Database) : afterLine S now line db = (ingest S now l db).1 := by
  rw [afterLine, ingestCostLine, h]
  rfl

/-- A line can be ingested again without a trace exactly when nothing comes of it but the
team. Two lines keep their rows exactly when each is accepted, or already there, in the
state it meets and they do not share worker, day and instant. -/
theorem cost_lines_iff {line₁ line₂ : List Char} {l₁ l₂ : CostLine}
    (h₁ : costLine S line₁ = some l₁) (h₂ : costLine S line₂ = some l₂) (db : Database)
    (now₁ now₂ : Int) :
    (afterLine S now₂ line₁ (afterLine S now₁ line₁ db) = afterLine S now₁ line₁ db ↔
      resolveRoleId S db l₁.role = none ∨ ¬ Accepted S db l₁) ∧
    ((resolveRoleId S db l₁.role).isSome → (resolveRoleId S db l₂.role).isSome →
      let db₁ := afterLine S now₁ line₁ db
      (HoldsRowOfEach S db db₁ (afterLine S now₂ line₂ db₁) l₁ l₂ ↔
        ∃ row₁ row₂, rowOf S db l₁ = some row₁ ∧ rowOf S db₁ l₂ = some row₂ ∧
          row₁.key ≠ row₂.key ∧ Kept S db l₁ row₁ ∧ Kept S db₁ l₂ row₂)) := by
  simp only [afterLine_eq S h₁, afterLine_eq S h₂]
  exact ⟨ingest_twice_iff S l₁ db now₁ now₂,
    fun hrole₁ hrole₂ => holdsRowOfEach_iff S hrole₁ hrole₂⟩

end

/-! ## One worker, one instant -/

/-- The ids of the default team, of one worker and of its assignment of the first of May. -/
def oneWorkerUuid5 (name : String) : Uuid :=
  if name = "https://spine.local/team/default" then
    ⟨0x14e8b687, 0x3dcf, 0x5221, 0x9d6c, 0x353dc636aa1b⟩
  else if name = "https://spine.local/worker/h/i/default/engineer-1" then
    ⟨0x46459a6f, 0x0d2d, 0x5ced, 0x8bf0, 0x9b513f029972⟩
  else ⟨0x1d8c6c86, 0x208e, 0x5aee, 0x94c8, 0x5e4aec28d88c⟩

def utcSession : Session where
  uuid5 := oneWorkerUuid5
  isUuid := fun s => (Uuid.read s.toList).isSome
  pyFloat := fun v => match v with
    | .float x => .ok x
    | .int n => .ok (.ofDecimal (n < 0) n.natAbs 0)
    | _ => .error .invalid
  timestamptz := fun t => match t with
    | .naive w => w.micros
    | .aware a => a.utc
  costNumeric := some
  uuidInput := fun s => Uuid.read s.toList
  collate := fun a b => decide (a ≤ b)

def seeded : Database where
  team := []
  worker := []
  assignment := []
  costRow := []
  event := []
  role := [⟨"engineer", "engineer"⟩]
  model := []
  tier := ["low", "medium", "high"]
  engagement := []

/-- A line of the worker at ten o'clock, with its key. -/
def engineerLine (key : String) : Value := .obj [
  ("ts", .str "2026-05-01T10:00:00Z"), ("role", .str "engineer"), ("mode", .str "apply"),
  ("slot", .str "1"), ("phase", .str "build"), ("tier", .str "low"), ("wall_s", .int 2),
  ("rc", .int 0), ("outcome", .str "ok"), ("host_id", .str "h"), ("instance_id", .str "i"),
  ("idempotency_key", .str key)]

/-- What two keys of the worker are found to do, of the lines themselves. -/
theorem engineer_lines {p : CostLine → CostLine → Prop} [DecidableRel p]
    (h : (costFields utcSession (engineerLine "k1").dicts).any (fun l₁ =>
      (costFields utcSession (engineerLine "k2").dicts).any fun l₂ => p l₁ l₂) = true) :
    ∃ l₁ l₂, costLine utcSession (encode (engineerLine "k1")) = some l₁ ∧
      costLine utcSession (encode (engineerLine "k2")) = some l₂ ∧ p l₁ l₂ := by
  obtain ⟨l₁, hl₁, h⟩ := (Option.any_eq_true _ _).mp h
  obtain ⟨l₂, hl₂, h⟩ := (Option.any_eq_true _ _).mp h
  exact ⟨l₁, l₂, (costLine_encode utcSession _).trans hl₁, (costLine_encode utcSession _).trans hl₂,
    of_decide_eq_true h⟩

/-- The two lines have different keys and a known role. -/
abbrev Distinguished (l₁ l₂ : CostLine) : Prop :=
  l₁.idempotencyKey ≠ l₂.idempotencyKey ∧ (resolveRoleId utcSession seeded l₁.role).isSome ∧
    (resolveRoleId utcSession seeded l₂.role).isSome

theorem cost_lines_iff_engineer : ∃ l₁ l₂, Distinguished l₁ l₂ ∧
    let db₁ := afterLine utcSession 0 (encode (engineerLine "k1")) seeded
    (afterLine utcSession 1 (encode (engineerLine "k1")) db₁ = db₁ ↔
      resolveRoleId utcSession seeded l₁.role = none ∨ ¬ Accepted utcSession seeded l₁) ∧
    (HoldsRowOfEach utcSession seeded db₁
        (afterLine utcSession 1 (encode (engineerLine "k2")) db₁) l₁ l₂ ↔
      ∃ row₁ row₂, rowOf utcSession seeded l₁ = some row₁ ∧ rowOf utcSession db₁ l₂ = some row₂ ∧
        row₁.key ≠ row₂.key ∧ Kept utcSession seeded l₁ row₁ ∧ Kept utcSession db₁ l₂ row₂) := by
  obtain ⟨l₁, l₂, h₁, h₂, hd⟩ := engineer_lines (p := Distinguished) (by decide +kernel)
  obtain ⟨hreplay, hrows⟩ := cost_lines_iff utcSession h₁ h₂ seeded 0 1
  exact ⟨l₁, l₂, hd, hreplay, hrows hd.2.1 hd.2.2⟩

/-- The same line again adds an event; another invocation of the same worker in the same
second finds its place in `cost_row` taken. -/
theorem replayed_event_and_lost_row : ∃ l₁ l₂,
    costLine utcSession (encode (engineerLine "k1")) = some l₁ ∧
    costLine utcSession (encode (engineerLine "k2")) = some l₂ ∧ Distinguished l₁ l₂ ∧
    let db₁ := afterLine utcSession 0 (encode (engineerLine "k1")) seeded
    afterLine utcSession 1 (encode (engineerLine "k1")) db₁ ≠ db₁ ∧
    ¬ HoldsRowOfEach utcSession seeded db₁
      (afterLine utcSession 1 (encode (engineerLine "k2")) db₁) l₁ l₂ := by
  obtain ⟨l₁, l₂, h₁, h₂, hd, hevents, hrows⟩ := engineer_lines (p := fun l₁ l₂ =>
    Distinguished l₁ l₂ ∧
      (ingest utcSession 1 l₁ (ingest utcSession 0 l₁ seeded).1).1.event.length ≠
        (ingest utcSession 0 l₁ seeded).1.event.length ∧
      (ingest utcSession 1 l₂ (ingest utcSession 0 l₁ seeded).1).1.costRow.length = 1)
    (by decide +kernel)
  refine ⟨l₁, l₂, h₁, h₂, hd, ?_⟩
  simp only [afterLine_eq utcSession h₁, afterLine_eq utcSession h₂]
  refine ⟨fun h => hevents (congrArg (fun db : Database => db.event.length) h), ?_⟩
  rintro ⟨row₁, row₂, -, -, hne, hmem₁, hmem₂⟩
  obtain ⟨row, hrow⟩ := List.length_eq_one_iff.mp hrows
  rw [hrow, List.mem_singleton] at hmem₁ hmem₂
  exact hne (congrArg CostRow.key (hmem₁.trans hmem₂.symm))

end SpineFormal.Watcher
