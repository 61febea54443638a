import SpineFormal.Base.Replay
import SpineFormal.Watcher.CostIngest

/-!
# Replaying instance events

`ingest_instance_event` and `_project_vitals` of `db/watcher/spine_watcher.py` over the two
tables of V6, V11 and V13. A start, a heartbeat and a stop write overlapping columns of one row,
each by its own rule: the least or the greatest value, the last one, the last one that is there,
the first one, a status that a heartbeat does not wake, one key of a document.

Every rule forgets what a later event would write again, so that the end of a log which starts
with a start can be ingested once more.
-/

namespace SpineFormal.Watcher.Instances

open Json
set_option autoImplicit false

/-! ## The event -/

/-- `INSTANCE_EVENT_TYPES`. -/
inductive InstanceEventType where
  | started | heartbeat | stopped

def InstanceEventType.ofName : String → Option InstanceEventType
  | "InstanceStarted" => some .started
  | "InstanceHeartbeat" => some .heartbeat
  | "InstanceStopped" => some .stopped
  | _ => none

inductive CapturedField where
  | osUser | projectPath | projectSlug | versionSha | versionShort | spineVersion

namespace CapturedField

def all : List CapturedField :=
  [osUser, projectPath, projectSlug, versionSha, versionShort, spineVersion]

def name : CapturedField → String
  | osUser => "os_user"
  | projectPath => "project_path"
  | projectSlug => "project_slug"
  | versionSha => "version_sha"
  | versionShort => "version_short"
  | spineVersion => "spine_version"

end CapturedField

inductive VitalField where
  | cpuPct | memUsedMb | memTotalMb | diskUsedGb | diskTotalGb | loadAvg1m | loadAvg5m | loadAvg15m
  | spineCpuPct | spineMemMb | spineProcCount

namespace VitalField

/-- `VITAL_FIELDS`. -/
def all : List VitalField :=
  [cpuPct, memUsedMb, memTotalMb, diskUsedGb, diskTotalGb, loadAvg1m, loadAvg5m, loadAvg15m,
    spineCpuPct, spineMemMb, spineProcCount]

def name : VitalField → String
  | cpuPct => "cpu_pct"
  | memUsedMb => "mem_used_mb"
  | memTotalMb => "mem_total_mb"
  | diskUsedGb => "disk_used_gb"
  | diskTotalGb => "disk_total_gb"
  | loadAvg1m => "load_avg_1m"
  | loadAvg5m => "load_avg_5m"
  | loadAvg15m => "load_avg_15m"
  | spineCpuPct => "spine_cpu_pct"
  | spineMemMb => "spine_mem_mb"
  | spineProcCount => "spine_proc_count"

/-- The fields that stay integers. -/
def isInt : VitalField → Bool
  | memUsedMb | memTotalMb | spineMemMb | spineProcCount => true
  | _ => false

end VitalField

inductive VitalValue where
  | int (n : Int)
  | real (x : PyFloat)

abbrev Vitals := VitalField → Option VitalValue

/-- What the columns of the two tables make of their parameters. -/
structure InstanceSession extends Session where
  /-- A parameter for a `text` column that is no text. -/
  otherText : Value → Option String
  /-- `real`. -/
  real : PyFloat → Option PyFloat

inductive InstanceError where
  /-- `instance event missing fields: [...]`, in order. -/
  | missingFields (names : List String)
  /-- `_parse_ts` raised. -/
  | timestamp
  /-- `instance event group_id must be non-empty string, got ...`. -/
  | groupId (v : Option Value)
  /-- The event type is an array or an object. -/
  | unhashable
  /-- A vital is out of the range of `int` or `float`. -/
  | overflow
  | database (e : PgError)

structure InstanceEvent where
  ts : Int
  eventType : InstanceEventType
  groupId : String
  hostId : Value
  captured : CapturedField → Option Value
  tenantId : String
  channel : Option String
  vitals : Option Vitals

def instanceEventRequiredFields : List String := ["event_type", "group_id", "host_id", "ts"]

/-- `payload.get(key)`, of a payload that is an object. -/
def payloadMember (obj : Members) (key : String) : Option Value :=
  match lookup obj "payload" with
  | some (.obj payload) => lookup payload key
  | _ => none

/-- The stripped channel of the payload. -/
def parseChannel (obj : Members) : Option String :=
  match payloadMember obj "channel" with
  | some (.str c) =>
    let c := trimBy pySpace c.toList
    if c = [] then none else some (String.ofList c)
  | _ => none

section
variable (S : InstanceSession)

/-- One field of `_extract_vitals`; `none` is a field that is skipped. -/
def readVital (k : VitalField) : Option Value → Except InstanceError (Option VitalValue)
  | none | some .null => .ok none
  | some v =>
    if k.isInt then
      match v with
      | .float (.inf _) => .error .overflow
      | v => .ok ((Migration.pyInt v).map .int)
    else
      match S.pyFloat v with
      | .ok x => .ok (some (.real x))
      | .error .invalid => .ok none
      | .error .overflow => .error .overflow

/-- `_extract_vitals`. -/
def extractVitals (obj : Members) : Except InstanceError (Option Vitals) :=
  match payloadMember obj "vitals" with
  | some (.obj vitals) =>
    let read : VitalField → Except InstanceError (Option VitalValue) :=
      fun k => readVital S k (lookup vitals k.name)
    if VitalField.all.all fun k => (read k).isOk then
      let out : Vitals := fun k => (read k).toOption.join
      .ok (if VitalField.all.all fun k => (out k).isNone then none else some out)
    else .error .overflow
  | _ => .ok none

/-- `group_id` and `event_type`; `none` is a type to skip. -/
def eventRoute (obj : Members) : Except InstanceError (Option (String × InstanceEventType)) :=
  match lookup obj "group_id" with
  | some (.str g) =>
    if g = "" then .error (.groupId (some (.str g)))
    else
      match lookup obj "event_type" with
      | some (.arr _) | some (.obj _) => .error .unhashable
      | some (.str s) => .ok ((InstanceEventType.ofName s).map fun t => (g, t))
      | _ => .ok none
  | v => .error (.groupId v)

/-- What `ingest_instance_event` reads before its transaction; `none` is an event to skip. -/
def readEvent (obj : Members) : Except InstanceError (Option InstanceEvent) :=
  let missing := instanceEventRequiredFields.filter fun f => (lookup obj f).isNone
  if missing ≠ [] then .error (.missingFields missing)
  else
    match (textField obj "ts").bind fun s => parseTs s.toList with
    | none => .error .timestamp
    | some ts =>
      match eventRoute obj with
      | .error e => .error e
      | .ok none => .ok none
      | .ok (some (groupId, eventType)) =>
        match extractVitals S obj with
        | .error e => .error e
        | .ok vitals => .ok (some {
            ts := S.timestamptz ts, eventType, groupId, vitals
            hostId := nullable (lookup obj "host_id")
            captured := fun k => (lookup obj k.name).filter Migration.truthy
            tenantId := parseTenantId obj
            channel := parseChannel obj })

end

/-! ## The tables -/

/-- `instance_status`. -/
inductive InstanceStatus where
  | starting | alive | stopped | lost

@[ext] structure InstanceRow where
  instanceId : String
  hostId : String
  captured : CapturedField → Option String
  startedAt : Int
  lastSeenAt : Int
  stoppedAt : Option Int
  status : InstanceStatus
  /-- `none` where the table has no such column. -/
  tenantId : Option String
  /-- Only these statements write it, and they write objects. -/
  metadataJson : Members
  vitals : Vitals
  vitalsAt : Option Int

structure VitalsRow where
  instanceId : String
  ts : Int
  vitals : Vitals

/-- `PRIMARY KEY (instance_id, ts)`. -/
def VitalsRow.key (r : VitalsRow) : String × Int := (r.instanceId, r.ts)

@[ext] structure InstanceTables where
  spineInstance : List InstanceRow
  instanceVitals : List VitalsRow

/-- What the probes of the watcher find in the database. -/
structure Schema where
  /-- V11: `spine_instance.tenant_id`. -/
  tenantCol : Bool
  /-- V13: the vitals columns of `spine_instance`. -/
  vitalsCols : Bool
  /-- V13: the table `instance_vitals`. -/
  vitalsTable : Bool

def Known (g : String) (t : InstanceTables) : Prop := ∃ r ∈ t.spineInstance, r.instanceId = g

instance (g : String) (t : InstanceTables) : Decidable (Known g t) :=
  inferInstanceAs (Decidable (∃ r ∈ t.spineInstance, r.instanceId = g))

/-- `UPDATE spine_instance SET ... WHERE instance_id = g`. -/
def updateInstance (g : String) (set : InstanceRow → InstanceRow) (t : InstanceTables) :
    InstanceTables :=
  { t with spineInstance :=
      t.spineInstance.map fun r => if r.instanceId = g then set r else r }

/-! ## The statements -/

/-- `metadata_json || channel_jsonb`. -/
def mergeChannel (channel : Option String) (metadata : Members) : Members :=
  match channel with
  | none => metadata
  | some c => put Prod.fst ("channel", .str c) metadata

/-- The parameters of the upsert, as their columns take them. -/
structure StartedParams where
  groupId : String
  hostId : String
  captured : CapturedField → Option String
  ts : Int
  tenantId : String
  channel : Option String

def startedRow (schema : Schema) (p : StartedParams) : InstanceRow where
  instanceId := p.groupId
  hostId := p.hostId
  captured := p.captured
  startedAt := p.ts
  lastSeenAt := p.ts
  stoppedAt := none
  status := .alive
  tenantId := if schema.tenantCol then some p.tenantId else none
  metadataJson := mergeChannel p.channel []
  vitals := fun _ => none
  vitalsAt := none

/-- `ON CONFLICT (instance_id) DO UPDATE SET`. -/
def restartedRow (schema : Schema) (p : StartedParams) (r : InstanceRow) : InstanceRow :=
  { r with
    hostId := p.hostId
    captured := fun k => (p.captured k).or (r.captured k)
    startedAt := min r.startedAt p.ts
    lastSeenAt := max r.lastSeenAt p.ts
    status := .alive
    stoppedAt := none
    tenantId := if schema.tenantCol then r.tenantId.or (some p.tenantId) else r.tenantId
    metadataJson := mergeChannel p.channel r.metadataJson }

def upsertInstance (schema : Schema) (p : StartedParams) (t : InstanceTables) : InstanceTables :=
  if Known p.groupId t then updateInstance p.groupId (restartedRow schema p) t
  else { t with spineInstance := t.spineInstance ++ [startedRow schema p] }

def heartbeatStatus : InstanceStatus → InstanceStatus
  | .stopped => .stopped
  | _ => .alive

def heartbeatRow (ts : Int) (channel : Option String) (r : InstanceRow) : InstanceRow :=
  { r with
    lastSeenAt := max r.lastSeenAt ts
    status := heartbeatStatus r.status
    metadataJson := mergeChannel channel r.metadataJson }

def stoppedRow (ts : Int) (r : InstanceRow) : InstanceRow :=
  { r with stoppedAt := some ts, lastSeenAt := max r.lastSeenAt ts, status := .stopped }

/-- The columns of the vitals that came, and `vitals_at`. -/
def vitalsRow (ts : Int) (vitals : Vitals) (r : InstanceRow) : InstanceRow :=
  { r with vitals := fun k => (vitals k).or (r.vitals k), vitalsAt := some ts }

section
variable (S : InstanceSession) (schema : Schema)

/-- A parameter for a `text` column. -/
def textColumn : Value → Except PgError String
  | .null => .error .dataError
  | .str s => if NoNul s then .ok s else .error .dataError
  | v =>
    match S.otherText v with
    | some s => .ok s
    | none => .error .dataError

/-- The range of a `bigint` column. -/
def FitsBigint (n : Int) : Prop := -9223372036854775808 ≤ n ∧ n < 9223372036854775808

instance (n : Int) : Decidable (FitsBigint n) := inferInstanceAs (Decidable (_ ∧ _))

def vitalColumn (k : VitalField) : VitalValue → Option VitalValue
  | .real x => (S.real x).map .real
  | .int n =>
    match k with
    | .spineProcCount => if FitsInteger n then some (.int n) else none
    | _ => if FitsBigint n then some (.int n) else none

/-- The vitals as their columns take them. -/
def vitalsColumns (vitals : Vitals) : Except PgError Vitals := do
  check (∀ k ∈ VitalField.all, ∀ v ∈ vitals k, (vitalColumn S k v).isSome) .dataError
  return fun k => (vitals k).bind (vitalColumn S k)

/-- `_project_vitals`. -/
def projectVitals (g : String) (ts : Int) (vitals : Vitals) (t : InstanceTables) :
    Except PgError InstanceTables :=
  if schema.vitalsCols then do
    let columns ← vitalsColumns S vitals
    let t := updateInstance g (vitalsRow ts columns) t
    if schema.vitalsTable then
      return { t with
        instanceVitals := insertNew VitalsRow.key t.instanceVitals ⟨g, ts, columns⟩ }
    else return t
  else return t

/-- `if vitals is not None`. -/
def projectIfAny (g : String) (ts : Int) (vitals : Option Vitals) (t : InstanceTables) :
    Except PgError InstanceTables :=
  match vitals with
  | none => .ok t
  | some vitals => projectVitals S schema g ts vitals t

def startedParams (e : InstanceEvent) : Except PgError StartedParams := do
  bindTexts (e.groupId :: (if schema.tenantCol then [e.tenantId] else []) ++ e.channel.toList)
  let hostId ← textColumn S e.hostId
  check (∀ k ∈ CapturedField.all, ∀ v ∈ e.captured k, (textColumn S v).isOk) .dataError
  return {
    groupId := e.groupId, hostId, ts := e.ts, tenantId := e.tenantId, channel := e.channel
    captured := fun k => (e.captured k).bind fun v => (textColumn S v).toOption }

/-- The transaction of `ingest_instance_event`. -/
def ingestEvent (e : InstanceEvent) (t : InstanceTables) : Except PgError InstanceTables :=
  match e.eventType with
  | .started => do
    let p ← startedParams S schema e
    projectIfAny S schema e.groupId e.ts e.vitals (upsertInstance schema p t)
  | .heartbeat => do
    bindTexts (e.groupId :: e.channel.toList)
    let t' := updateInstance e.groupId (heartbeatRow e.ts e.channel) t
    -- without a row the vitals would break the foreign key of `instance_vitals`
    if Known e.groupId t then projectIfAny S schema e.groupId e.ts e.vitals t' else return t'
  | .stopped => do
    bindTexts [e.groupId]
    return updateInstance e.groupId (stoppedRow e.ts) t

def ingestInstanceEvent (obj : Members) (t : InstanceTables) :
    Except InstanceError InstanceTables :=
  match readEvent S obj with
  | .error e => .error e
  | .ok none => .ok t
  | .ok (some e) => (ingestEvent S schema e t).mapError .database

/-- The events one after the other; one that raises leaves the tables as they are. -/
def ingestAll (t : InstanceTables) (objs : List Members) : InstanceTables :=
  objs.foldl (fun t obj => (ingestInstanceEvent S schema obj t).toOption.getD t) t

end

/-! ## What a statement writes -/

/-- A statement about an instance whose row is there. -/
inductive Write where
  | start (p : StartedParams)
  | beat (ts : Int) (channel : Option String)
  | stop (ts : Int)
  | vitals (ts : Int) (columns : Vitals)
  | snapshot (row : VitalsRow)

namespace Write

def row (schema : Schema) : Write → InstanceRow → InstanceRow
  | start p => restartedRow schema p
  | beat ts channel => heartbeatRow ts channel
  | stop ts => stoppedRow ts
  | vitals ts columns => vitalsRow ts columns
  | snapshot _ => id

def snapshots : Write → List VitalsRow
  | snapshot row => [row]
  | _ => []

def tables (schema : Schema) (g : String) (w : Write) (t : InstanceTables) : InstanceTables where
  spineInstance := (updateInstance g (w.row schema) t).spineInstance
  instanceVitals := w.snapshots.foldl (insertNew VitalsRow.key) t.instanceVitals

def params? : Write → Option StartedParams
  | start p => some p
  | _ => none

def channelEntry : Write → Option (String × Value)
  | start p => p.channel.map fun c => ("channel", .str c)
  | beat _ channel => channel.map fun c => ("channel", .str c)
  | _ => none

def seenAt : Write → Option Int
  | start p => some p.ts
  | beat ts _ => some ts
  | stop ts => some ts
  | _ => none

def stoppedAt : Write → Option (Option Int)
  | start _ => some none
  | stop ts => some (some ts)
  | _ => none

def status : Write → InstanceStatus → InstanceStatus
  | start _ => fun _ => .alive
  | beat .. => heartbeatStatus
  | stop _ => fun _ => .stopped
  | _ => id

def columns : Write → Vitals
  | vitals _ columns => columns
  | _ => fun _ => none

def vitalsAt : Write → Option (Option Int)
  | vitals ts _ => some (some ts)
  | _ => none

end Write

/-! ## Replaying writes -/

section
variable (schema : Schema)

theorem mergeChannel_eq (channel : Option String) (metadata : Members) :
    mergeChannel channel metadata =
      (channel.map fun c => ("channel", Value.str c)).elim metadata (put Prod.fst · metadata) := by
  cases channel <;> rfl

theorem heartbeatStatus_idem (s : InstanceStatus) :
    heartbeatStatus (heartbeatStatus s) = heartbeatStatus s := by
  cases s <;> rfl

theorem channelEntry_key (w : Write) : ∀ m ∈ w.channelEntry, m.1 = "channel" := by
  intro m hm
  cases w with
  | start p =>
    obtain ⟨c, -, rfl⟩ := Option.map_eq_some_iff.mp hm
    rfl
  | beat ts channel =>
    obtain ⟨c, -, rfl⟩ := Option.map_eq_some_iff.mp hm
    rfl
  | stop | vitals | snapshot => cases hm

theorem replayable_status : Replayable Write.status := by
  apply replayable_guard heartbeatStatus_idem
  intro w
  cases w with
  | start | stop => exact Or.inl ⟨_, rfl⟩
  | beat => exact Or.inr (Or.inr rfl)
  | vitals | snapshot => exact Or.inr (Or.inl rfl)

theorem replayable_captured :
    Replayable fun (w : Write) (f : CapturedField → Option String) k =>
      (w.params?.bind (·.captured k)).or (f k) :=
  replayable_pi (fun _ _ _ => rfl) fun _ => replayable_coalesce fun _ _ => rfl

theorem replayable_vitals :
    Replayable fun (w : Write) (f : Vitals) k => (w.columns k).or (f k) :=
  replayable_pi (fun _ _ _ => rfl) fun _ => replayable_coalesce fun _ _ => rfl

theorem row_captured (w : Write) (r : InstanceRow) :
    (w.row schema r).captured = fun k => (w.params?.bind (·.captured k)).or (r.captured k) := by
  cases w <;> rfl

theorem row_tenantId (w : Write) (r : InstanceRow) : (w.row schema r).tenantId =
    r.tenantId.or (if schema.tenantCol then w.params?.map StartedParams.tenantId else none) := by
  cases w with
  | start p =>
    rw [Write.row, restartedRow]
    split <;> simp [Write.params?]
  | beat | stop | vitals | snapshot =>
    split <;> exact Option.or_none.symm

theorem row_metadataJson (w : Write) (r : InstanceRow) : (w.row schema r).metadataJson =
    w.channelEntry.elim r.metadataJson (put Prod.fst · r.metadataJson) := by
  cases w with
  | start | beat => exact mergeChannel_eq _ _
  | stop | vitals | snapshot => rfl

/-- Each column of an instance's row by its own rule. -/
theorem row_replayable : Replayable (Write.row schema) := by
  intro r ws
  refine InstanceRow.ext ?_ ?_ ?_ ?_ ?_ ?_ ?_ ?_ ?_ ?_ ?_
  · exact (replayable_last (fun _ => none) fun _ _ => rfl).column
      InstanceRow.instanceId (fun w _ => by cases w <;> rfl) r ws
  · exact (replayable_last (fun w : Write => w.params?.map StartedParams.hostId)
      fun _ _ => rfl).column InstanceRow.hostId (fun w _ => by cases w <;> rfl) r ws
  · exact replayable_captured.column InstanceRow.captured (row_captured schema) r ws
  · exact (replayable_op min min_assoc min_self (fun w : Write => w.params?.map StartedParams.ts)
      fun _ _ => rfl).column InstanceRow.startedAt (fun w _ => by cases w <;> rfl) r ws
  · exact (replayable_op max max_assoc max_self Write.seenAt fun _ _ => rfl).column
      InstanceRow.lastSeenAt (fun w _ => by cases w <;> rfl) r ws
  · exact (replayable_last Write.stoppedAt fun _ _ => rfl).column
      InstanceRow.stoppedAt (fun w _ => by cases w <;> rfl) r ws
  · exact replayable_status.column InstanceRow.status (fun w _ => by cases w <;> rfl) r ws
  · exact (replayable_first fun _ _ => rfl).column InstanceRow.tenantId (row_tenantId schema) r ws
  · exact (replayable_put channelEntry_key fun _ _ => rfl).column
      InstanceRow.metadataJson (row_metadataJson schema) r ws
  · exact replayable_vitals.column InstanceRow.vitals (fun w _ => by cases w <;> rfl) r ws
  · exact (replayable_last Write.vitalsAt fun _ _ => rfl).column
      InstanceRow.vitalsAt (fun w _ => by cases w <;> rfl) r ws

theorem row_instanceId (w : Write) (r : InstanceRow) :
    (w.row schema r).instanceId = r.instanceId := by
  cases w <;> rfl

/-- Writing the end of a log of one instance again leaves both tables as they are. -/
theorem tables_replayable (g : String) : Replayable (Write.tables schema g) := by
  intro t ws
  have hrow : Replayable fun (w : Write) (r : InstanceRow) =>
      if r.instanceId = g then w.row schema r else r :=
    replayable_ite (p := fun r => r.instanceId = g)
      (fun w r hr => (row_instanceId schema w r).trans hr) (row_replayable schema)
  have hsnapshots : Replayable fun (w : Write) rows =>
      w.snapshots.foldl (insertNew VitalsRow.key) rows :=
    replayable_insertNew fun _ _ => rfl
  apply InstanceTables.ext
  · exact (replayable_map hrow).column InstanceTables.spineInstance (fun _ _ => rfl) t ws
  · exact hsnapshots.column InstanceTables.instanceVitals (fun _ _ => rfl) t ws

end

/-! ## What an event writes -/

theorem updateInstance_id (g : String) (t : InstanceTables) : updateInstance g id t = t := by
  apply InstanceTables.ext
  · exact (List.map_congr_left fun r _ => ite_self r).trans (List.map_id _)
  · rfl

theorem known_updateInstance {g : String} {set : InstanceRow → InstanceRow}
    (hset : ∀ r, (set r).instanceId = r.instanceId) {t : InstanceTables} :
    Known g (updateInstance g set t) ↔ Known g t := by
  have hrow : ∀ r : InstanceRow,
      (if r.instanceId = g then set r else r).instanceId = r.instanceId := by
    intro r
    split
    · exact hset r
    · rfl
  constructor
  · rintro ⟨r, hr, hg⟩
    obtain ⟨r', hr', rfl⟩ := List.mem_map.mp hr
    exact ⟨r', hr', (hrow r').symm.trans hg⟩
  · rintro ⟨r, hr, hg⟩
    exact ⟨_, List.mem_map_of_mem hr, (hrow r).trans hg⟩

theorem known_applyAll (schema : Schema) {g : String} {t : InstanceTables} (h : Known g t)
    (ws : List Write) : Known g (applyAll (Write.tables schema g) t ws) := by
  induction ws generalizing t with
  | nil => exact h
  | cons w ws ih => exact ih ((known_updateInstance (row_instanceId schema w)).mpr h)

section
variable (S : InstanceSession) (schema : Schema)

def vitalsWrites (g : String) (ts : Int) : Option Vitals → Except PgError (List Write)
  | none => .ok []
  | some vitals =>
    if schema.vitalsCols then
      (vitalsColumns S vitals).map fun columns =>
        .vitals ts columns :: if schema.vitalsTable then [.snapshot ⟨g, ts, columns⟩] else []
    else .ok []

/-- The statements of the event, where the instance is known. -/
def eventWrites (e : InstanceEvent) : Except PgError (List Write) :=
  match e.eventType with
  | .started => do
    let p ← startedParams S schema e
    let ws ← vitalsWrites S schema e.groupId e.ts e.vitals
    return .start p :: ws
  | .heartbeat => do
    bindTexts (e.groupId :: e.channel.toList)
    let ws ← vitalsWrites S schema e.groupId e.ts e.vitals
    return .beat e.ts e.channel :: ws
  | .stopped => do
    bindTexts [e.groupId]
    return [.stop e.ts]

theorem projectVitals_eq (g : String) (ts : Int) (vitals : Vitals) (t : InstanceTables) :
    projectVitals S schema g ts vitals t =
      (vitalsWrites S schema g ts (some vitals)).map (applyAll (Write.tables schema g) t) := by
  rw [projectVitals, vitalsWrites]
  split
  · cases vitalsColumns S vitals with
    | error e => rfl
    | ok columns =>
      cases schema.vitalsTable with
      | false => rfl
      | true =>
        have hid := updateInstance_id g (updateInstance g (vitalsRow ts columns) t)
        have hrows := congrArg InstanceTables.spineInstance hid
        exact congrArg Except.ok (InstanceTables.ext hrows.symm rfl)
  · rfl

theorem projectIfAny_eq (g : String) (ts : Int) (vitals : Option Vitals) (t : InstanceTables) :
    projectIfAny S schema g ts vitals t =
      (vitalsWrites S schema g ts vitals).map (applyAll (Write.tables schema g) t) := by
  cases vitals with
  | none => rfl
  | some vitals => exact projectVitals_eq S schema g ts vitals t

theorem startedParams_ok {e : InstanceEvent} {p : StartedParams}
    (h : startedParams S schema e = .ok p) : p.groupId = e.groupId := by
  rw [startedParams] at h
  obtain ⟨-, -, h⟩ := bind_ok.mp h
  obtain ⟨hostId, -, h⟩ := bind_ok.mp h
  obtain ⟨-, -, h⟩ := bind_ok.mp h
  rw [pure_ok.mp h]

theorem upsertInstance_known {p : StartedParams} {t : InstanceTables} (h : Known p.groupId t) :
    upsertInstance schema p t = (Write.start p).tables schema p.groupId t := if_pos h

/-- An event about a known instance comes to its statements. -/
theorem ingestEvent_known {e : InstanceEvent} {t : InstanceTables} (h : Known e.groupId t) :
    ingestEvent S schema e t =
      (eventWrites S schema e).map (applyAll (Write.tables schema e.groupId) t) := by
  have hvitals : ∀ w : Write,
      projectIfAny S schema e.groupId e.ts e.vitals (w.tables schema e.groupId t) =
        (vitalsWrites S schema e.groupId e.ts e.vitals >>= fun ws => .ok (w :: ws)).map
          (applyAll (Write.tables schema e.groupId) t) := by
    intro w
    rw [projectIfAny_eq]
    cases vitalsWrites S schema e.groupId e.ts e.vitals <;> rfl
  rw [ingestEvent, eventWrites]
  cases e.eventType with
  | started =>
    cases hp : startedParams S schema e with
    | error err => rfl
    | ok p =>
      have hg := startedParams_ok S schema hp
      have hupsert := upsertInstance_known schema (hg ▸ h : Known p.groupId t)
      rw [hg] at hupsert
      exact (congrArg _ hupsert).trans (hvitals (.start p))
  | heartbeat =>
    cases bindTexts (e.groupId :: e.channel.toList) with
    | error err => rfl
    | ok =>
      exact (if_pos h).trans (hvitals (.beat e.ts e.channel))
  | stopped => cases bindTexts [e.groupId] <;> rfl

/-! ## Runs -/

theorem eventRoute_ok {obj : Members} {g : String} {eventType : InstanceEventType}
    (h : eventRoute obj = .ok (some (g, eventType))) :
    lookup obj "group_id" = some (.str g) ∧
      ∃ s, lookup obj "event_type" = some (.str s) ∧
        InstanceEventType.ofName s = some eventType := by
  unfold eventRoute at h
  split at h
  · rename_i g' hg
    split at h
    · cases h
    · split at h
      · cases h
      · cases h
      · rename_i s hs
        obtain ⟨t, ht, heq⟩ := Option.map_eq_some_iff.mp (Except.ok.inj h)
        cases heq
        exact ⟨hg, s, hs, ht⟩
      · cases h
  · cases h

theorem readEvent_ok {obj : Members} {read : Option InstanceEvent}
    (h : readEvent S obj = .ok read) :
    eventRoute obj = .ok (read.map fun e => (e.groupId, e.eventType)) := by
  unfold readEvent at h
  dsimp only at h
  split at h
  · cases h
  · split at h
    · cases h
    · split at h
      · cases h
      · rename_i hroute
        cases h
        exact hroute
      · rename_i hroute
        split at h
        · cases h
        · cases h
          exact hroute

def writesOf (obj : Members) : List Write :=
  match readEvent S obj with
  | .ok (some e) => (eventWrites S schema e).toOption.getD []
  | _ => []

/-- One event about a known instance. -/
theorem ingestInstanceEvent_known {obj : Members} {g : String} {t : InstanceTables}
    (hg : lookup obj "group_id" = some (.str g)) (h : Known g t) :
    (ingestInstanceEvent S schema obj t).toOption.getD t =
      applyAll (Write.tables schema g) t (writesOf S schema obj) := by
  rw [ingestInstanceEvent, writesOf]
  cases hread : readEvent S obj with
  | error e => rfl
  | ok read =>
    cases read with
    | none => rfl
    | some e =>
      have hroute := (eventRoute_ok (readEvent_ok S hread)).1
      obtain rfl : g = e.groupId := Value.str.inj (Option.some.inj (hg.symm.trans hroute))
      dsimp only
      rw [ingestEvent_known S schema h]
      cases eventWrites S schema e <;> rfl

theorem ingestAll_known {objs : List Members} {g : String} {t : InstanceTables}
    (hg : ∀ obj ∈ objs, lookup obj "group_id" = some (.str g)) (h : Known g t) :
    ingestAll S schema t objs =
      applyAll (Write.tables schema g) t (objs.flatMap (writesOf S schema)) := by
  induction objs generalizing t with
  | nil => rfl
  | cons obj objs ih =>
    obtain ⟨hobj, hobjs⟩ := List.forall_mem_cons.mp hg
    have hknown := known_applyAll schema h (writesOf S schema obj)
    rw [ingestAll, List.foldl_cons, ingestInstanceEvent_known S schema hobj h,
      List.flatMap_cons, applyAll_append]
    exact ih hobjs hknown

/-- The row of a new instance before its first start fills it. -/
def emptyRow (p : StartedParams) : InstanceRow :=
  { startedRow schema p with
    captured := fun _ => none
    tenantId := none
    metadataJson := [] }

def registered (p : StartedParams) (t : InstanceTables) : InstanceTables :=
  if Known p.groupId t then t
  else { t with spineInstance := t.spineInstance ++ [emptyRow schema p] }

theorem known_registered (p : StartedParams) (t : InstanceTables) :
    Known p.groupId (registered schema p t) := by
  rw [registered]
  split
  · assumption
  · exact ⟨_, List.mem_append_right _ (List.mem_singleton_self _), rfl⟩

theorem updateInstance_unknown {g : String} {t : InstanceTables} (h : ¬ Known g t)
    (set : InstanceRow → InstanceRow) :
    (t.spineInstance.map fun r => if r.instanceId = g then set r else r) = t.spineInstance := by
  refine (List.map_congr_left fun r hr => ?_).trans (List.map_id _)
  exact if_neg fun hg => h ⟨r, hr, hg⟩

theorem restartedRow_emptyRow (p : StartedParams) :
    restartedRow schema p (emptyRow schema p) = startedRow schema p := by
  apply InstanceRow.ext
  · rfl
  · rfl
  · exact funext fun k => Option.or_none
  · exact min_self p.ts
  · exact max_self p.ts
  · rfl
  · rfl
  · rfl
  · rfl
  · rfl
  · rfl

/-- An insert is an update of a row with nothing in it. -/
theorem upsertInstance_registered (p : StartedParams) (t : InstanceTables) :
    upsertInstance schema p (registered schema p t) = upsertInstance schema p t := by
  rw [upsertInstance, if_pos (known_registered schema p t), registered, upsertInstance]
  split
  · rfl
  · rename_i hnew
    have hempty : (if (emptyRow schema p).instanceId = p.groupId then
        restartedRow schema p (emptyRow schema p) else emptyRow schema p) =
        startedRow schema p := (if_pos rfl).trans (restartedRow_emptyRow schema p)
    apply InstanceTables.ext
    · simp only [updateInstance, List.map_append, List.map_singleton]
      rw [updateInstance_unknown hnew, hempty]
    · rfl

theorem ingestEvent_registered {e : InstanceEvent} (he : e.eventType = .started)
    {t t' : InstanceTables} (hok : ingestEvent S schema e t = .ok t') :
    ∃ t₀, Known e.groupId t₀ ∧ ingestEvent S schema e t₀ = .ok t' := by
  unfold ingestEvent at hok ⊢
  rw [he] at hok ⊢
  obtain ⟨p, hp, hok⟩ := bind_ok.mp hok
  refine ⟨registered schema p t, ?_, bind_ok.mpr ⟨p, hp, ?_⟩⟩
  · exact startedParams_ok S schema hp ▸ known_registered schema p t
  · rw [upsertInstance_registered]
    exact hok

/-- A start that goes through leaves what it leaves where the instance is known already. -/
theorem started_known {obj : Members} {g : String} {t : InstanceTables}
    (hg : lookup obj "group_id" = some (.str g))
    (htype : lookup obj "event_type" = some (.str "InstanceStarted"))
    (hok : (ingestInstanceEvent S schema obj t).isOk) :
    ∃ t₀, Known g t₀ ∧
      ingestInstanceEvent S schema obj t = ingestInstanceEvent S schema obj t₀ := by
  have hroute : ∀ {r}, eventRoute obj = .ok r → r = some (g, .started) := by
    intro r hr
    unfold eventRoute at hr
    rw [hg, htype] at hr
    dsimp only at hr
    split at hr
    · cases hr
    · exact (Except.ok.inj hr).symm
  unfold ingestInstanceEvent at hok ⊢
  cases hread : readEvent S obj with
  | error e =>
    rw [hread] at hok
    cases hok
  | ok read =>
    rw [hread] at hok
    have heq := hroute (readEvent_ok S hread)
    cases read with
    | none => cases heq
    | some e =>
      obtain ⟨rfl, htyped⟩ := Prod.mk.inj (Option.some.inj heq)
      dsimp only at hok ⊢
      cases hrun : ingestEvent S schema e t with
      | error err =>
        rw [hrun] at hok
        cases hok
      | ok t' =>
        obtain ⟨t₀, hknown, hrun₀⟩ := ingestEvent_registered S schema htyped hrun
        exact ⟨t₀, hknown, by rw [hrun₀]⟩

/-- Ingesting an end of the log of one instance again, from a log that starts with a start. -/
theorem ingestAll_suffix (t : InstanceTables) (g : String) (first : Members)
    (rest : List Members)
    (hfirst : lookup first "event_type" = some (.str "InstanceStarted"))
    (hok : (ingestInstanceEvent S schema first t).isOk)
    (hg : ∀ obj ∈ first :: rest, lookup obj "group_id" = some (.str g))
    (replayed : List Members) (hsuffix : replayed <:+ first :: rest) :
    ingestAll S schema (ingestAll S schema t (first :: rest)) replayed =
      ingestAll S schema t (first :: rest) := by
  obtain ⟨t₀, hknown, hsame⟩ :=
    started_known S schema (hg first List.mem_cons_self) hfirst hok
  have hstart : ingestAll S schema t (first :: rest) = ingestAll S schema t₀ (first :: rest) := by
    obtain ⟨t', ht'⟩ : ∃ t', ingestInstanceEvent S schema first t = .ok t' := by
      cases h : ingestInstanceEvent S schema first t with
      | ok t' => exact ⟨t', rfl⟩
      | error e =>
        rw [h] at hok
        cases hok
    rw [ingestAll, List.foldl_cons, ht', ingestAll, List.foldl_cons, ← hsame, ht']
    rfl
  obtain ⟨before, hbefore⟩ := hsuffix
  have hwrites : (first :: rest).flatMap (writesOf S schema) =
      before.flatMap (writesOf S schema) ++ replayed.flatMap (writesOf S schema) := by
    rw [← hbefore, List.flatMap_append]
  have hg' : ∀ obj ∈ replayed, lookup obj "group_id" = some (.str g) := by
    intro obj hobj
    exact hg obj (hbefore ▸ List.mem_append_right before hobj)
  rw [hstart, ingestAll_known S schema hg hknown,
    ingestAll_known S schema hg' (known_applyAll schema hknown _), hwrites]
  exact (tables_replayable schema g).suffix t₀ _ _

end

def utcInstances : InstanceSession :=
  { utcSession with
    otherText := Migration.versionText
    real := some }

def instanceEvent (eventType ts : String) (payload : Members) : Members :=
  [("type", .str "instance"), ("event_type", .str eventType), ("ts", .str ts),
    ("group_id", .str "g-1"), ("host_id", .str "mac"), ("payload", .obj payload)]

theorem lookup_instanceEvent (eventType ts : String) (payload : Members) :
    lookup (instanceEvent eventType ts payload) "event_type" = some (.str eventType) ∧
      lookup (instanceEvent eventType ts payload) "group_id" = some (.str "g-1") := by
  simp [instanceEvent, lookup]

def startLine : Members :=
  instanceEvent "InstanceStarted" "2026-05-03T10:00:00Z"
    [("channel", .str "stable"), ("vitals", .obj [("mem_used_mb", .int 512)])]

def beatLine (ts : String) (memUsedMb : Int) : Members :=
  instanceEvent "InstanceHeartbeat" ts [("vitals", .obj [("mem_used_mb", .int memUsedMb)])]

def stopLine : Members := instanceEvent "InstanceStopped" "2026-05-03T10:02:00Z" []

/-- A stopped instance whose last heartbeat came late, from the first heartbeat on. -/
theorem ingestAll_suffix_stopped :
    let log := [startLine, beatLine "2026-05-03T10:01:00Z" 768, stopLine,
      beatLine "2026-05-03T10:03:00Z" 640]
    let schema : Schema := ⟨true, true, true⟩
    ingestAll utcInstances schema (ingestAll utcInstances schema ⟨[], []⟩ log) (log.drop 1) =
      ingestAll utcInstances schema ⟨[], []⟩ log :=
  ingestAll_suffix utcInstances ⟨true, true, true⟩ ⟨[], []⟩ "g-1" startLine
    [beatLine "2026-05-03T10:01:00Z" 768, stopLine, beatLine "2026-05-03T10:03:00Z" 640]
    (lookup_instanceEvent ..).1 (by decide +kernel)
    (by simp [startLine, beatLine, stopLine, lookup_instanceEvent]) _ ⟨[startLine], rfl⟩

end SpineFormal.Watcher.Instances
