import Mathlib.Data.Nat.Factorization.Basic
import SpineFormal.Audit.AuditChain
import SpineFormal.Json.Jsonb

/-!
# Audit records through the database

The row that `write_via_psql` stores, with the column types of the schema, and the
record built from the row. `row_to_json` gives a cost as a JSON number, so the
exporter sees a float; a database driver gives a decimal with six places. The hash
covers texts, so a row is accepted exactly when the text of the cost and the floats
of the metadata come back as they were.
-/

namespace SpineFormal.Audit

open Json
set_option autoImplicit false

/-! ## Columns -/

/-- `NUMERIC(12, 6)`: millionths, rounded half away from zero. -/
def numericMicros (d : PyDecimal) : Nat :=
  match d.exp + 6 with
  | .ofNat k => d.coeff * 10 ^ k
  | .negSucc k => (2 * d.coeff + 10 ^ (k + 1)) / (2 * 10 ^ (k + 1))

/-- A row by its columns. -/
structure AuditColumns where
  eventUuid : Uuid
  ts : Wall
  projectId : Option Int
  phase : Option String
  role : String
  subsystem : Subsystem
  action : String
  subjectType : Option String
  subjectId : Option String
  actor : String
  rationale : Option String
  metadata : Metadata
  promptHash : Option String
  outputHash : Option String
  costMicros : Option Nat
  pipelineVersion : Option String
  correlationId : Option Uuid
  parentEventId : Option Int
  errorCode : Option String
  errorMessage : Option String
  prevEventHash : Option String
  contentHash : String

def BigInt (n : Int) : Prop := -2 ^ 63 ≤ n ∧ n < 2 ^ 63

instance (n : Int) : Decidable (BigInt n) := inferInstanceAs (Decidable (_ ∧ _))

/-- The conversions of the insert succeed. -/
def Storable (r : AuditRecord) (ts : Wall) : Prop :=
  (Value.obj (r.payload ts)).jsonbInput = true ∧ (∀ n ∈ r.projectId, BigInt n) ∧
    (∀ n ∈ r.parentEventId, BigInt n) ∧ ∀ c ∈ r.costUsd, numericMicros c.1 < 10 ^ 12

instance (r : AuditRecord) (ts : Wall) : Decidable (Storable r ts) :=
  inferInstanceAs (Decidable (_ ∧ _ ∧ _ ∧ _))

/-- The metadata as JSONB gives it back. -/
def Metadata.jsonb (m : Metadata) : Metadata :=
  ⟨(jsonbMembers m.1).insertionSort jsonbKeyLe, by
    have h := jsonb_distinct m.2
    rwa [Value.jsonb] at h⟩

/-- `INSERT ... SELECT ... FROM jsonb_populate_record(...)` of a serialised record. -/
def storeRow (r : AuditRecord) : Option AuditColumns :=
  r.contentHash.bind fun hash => r.ts.astimezoneUtc.bind fun ts =>
    if Storable r ts then
      some {
        eventUuid := r.eventUuid
        ts := ts
        projectId := r.projectId
        phase := r.phase
        role := r.role
        subsystem := r.subsystem
        action := r.action
        subjectType := r.subjectType
        subjectId := r.subjectId
        actor := r.actor
        rationale := r.rationale
        metadata := Metadata.jsonb r.metadata
        promptHash := r.promptHash
        outputHash := r.outputHash
        costMicros := r.costUsd.map fun c => numericMicros c.1
        pipelineVersion := r.pipelineVersion
        correlationId := r.correlationId
        parentEventId := r.parentEventId
        errorCode := r.errorCode
        errorMessage := r.errorMessage
        prevEventHash := r.prevEventHash
        contentHash := hash }
    else none

/-! ## Reading -/

/-- Who turns the row into a record: a driver with typed columns, or the exporter,
which reads `row_to_json`. -/
inductive RowReader where
  | driver
  | exporter
  deriving DecidableEq

/-- `Decimal(str(x))` of the float `micros / 10 ^ 6`: a whole number gets one zero
after the point, other numbers no more digits than they need. -/
def exporterCost (micros : Nat) : PyDecimal :=
  match PyFloat.ofDecimal false micros (-6) with
  | .finite neg c e _ => if e < 0 then ⟨neg, c, e⟩ else ⟨neg, c * 10 ^ (e.toNat + 1), -1⟩
  | _ => ⟨false, 0, -1⟩

example : (exporterCost 1500000).str = "1.5".toList ∧ (exporterCost 2000000).str = "2.0".toList ∧
    (exporterCost 0).str = "0.0".toList := by
  decide +kernel

def RowReader.cost (micros : Nat) : RowReader → PyDecimal
  | .driver => ⟨false, micros, -6⟩
  | .exporter => exporterCost micros

theorem RowReader.cost_neg (micros : Nat) (reader : RowReader) :
    (reader.cost micros).neg = false := by
  cases reader with
  | driver => rfl
  | exporter =>
    rw [cost, exporterCost, PyFloat.ofDecimal]
    by_cases h : 0 < micros
    · rw [dif_pos h]
      dsimp only
      split <;> rfl
    · rw [dif_neg h]

/-- The time zone of the session shows every instant on some clock. -/
structure SessionZone where
  clock : Wall → Aware
  same_instant : ∀ w, (clock w).utc = w.micros

/-- `AuditRecord(**row)`, before its validator compares the hashes. -/
def readBack (reader : RowReader) (zone : SessionZone) (row : AuditColumns) : AuditRecord where
  eventUuid := row.eventUuid
  ts := zone.clock row.ts
  projectId := row.projectId
  phase := row.phase
  role := row.role
  subsystem := row.subsystem
  action := row.action
  subjectType := row.subjectType
  subjectId := row.subjectId
  actor := row.actor
  rationale := row.rationale
  metadata := row.metadata
  promptHash := row.promptHash
  outputHash := row.outputHash
  costUsd := row.costMicros.map fun m =>
    ⟨reader.cost m, fun h => absurd h (by simp [RowReader.cost_neg])⟩
  pipelineVersion := row.pipelineVersion
  correlationId := row.correlationId
  parentEventId := row.parentEventId
  errorCode := row.errorCode
  errorMessage := row.errorMessage
  prevEventHash := row.prevEventHash
  contentHash := some row.contentHash

/-- The record read back passes the hash check. -/
def Accepted (reader : RowReader) (zone : SessionZone) (row : AuditColumns) : Prop :=
  computeContentHash (readBack reader zone row) = some row.contentHash

/-! ## Which costs come back -/

/-- The decimals that keep their text: six places for a driver; for the exporter the
shortest decimal of the number, with a place after the point. -/
def CostStable : RowReader → PyDecimal → Prop
  | .driver, d => d.neg = false ∧ d.exp = -6
  | .exporter, d => d.neg = false ∧ -6 ≤ d.exp ∧ d.exp < 0 ∧ (d.exp = -1 ∨ d.coeff % 10 ≠ 0)

theorem exporterCost_stable (micros : Nat) : CostStable .exporter (exporterCost micros) := by
  rw [exporterCost, PyFloat.ofDecimal]
  by_cases h : 0 < micros
  · rw [dif_pos h]
    have hcanonical := stripZeros_canonical h (Nat.le_refl micros)
    dsimp only
    split
    · rename_i he
      exact ⟨rfl, by dsimp only; omega, he, Or.inr hcanonical⟩
    · exact ⟨rfl, (by decide : (-6 : Int) ≤ -1), (by decide : (-1 : Int) < 0), Or.inl rfl⟩
  · rw [dif_neg h]
    exact ⟨rfl, by decide, by decide, Or.inl rfl⟩

theorem exporterCost_mul_pow {c : Nat} (hc : c % 10 ≠ 0) (z : Nat) :
    exporterCost (c * 10 ^ z) =
      if z < 6 then ⟨false, c, z - 6⟩ else ⟨false, c * 10 ^ (z - 5), -1⟩ := by
  rw [exporterCost, PyFloat.ofDecimal_mul_pow false hc]
  dsimp only
  by_cases hz : z < 6
  · rw [if_pos hz, if_pos (by omega), show (-6 : Int) + z = z - 6 by omega]
  · rw [if_neg hz, if_neg (by omega), show ((-6 : Int) + z).toNat + 1 = z - 5 by omega]

theorem exporterCost_of_stable {d : PyDecimal} (h : CostStable .exporter d) :
    exporterCost (numericMicros d) = d := by
  obtain ⟨neg, c, e⟩ := d
  obtain ⟨rfl, hlow, hneg, hlast⟩ := h
  dsimp only at hlow hneg hlast
  obtain ⟨k, hk⟩ : ∃ k : Nat, e + 6 = k := Int.eq_ofNat_of_zero_le (by omega)
  have hmicros : numericMicros ⟨false, c, e⟩ = c * 10 ^ k := by
    simp only [numericMicros, hk]
  rw [hmicros]
  by_cases hc : c % 10 = 0
  · obtain rfl : e = -1 := hlast.resolve_right (fun h => h hc)
    obtain rfl : k = 5 := by omega
    by_cases hzero : c = 0
    · subst hzero
      rfl
    · -- a whole number of tens: the zeros stripped come back, with one place kept
      obtain ⟨j, c', hdvd, rfl⟩ := Nat.exists_eq_pow_mul_and_not_dvd hzero 10 (by decide)
      have hc' : c' % 10 ≠ 0 := fun h => hdvd (Nat.dvd_of_mod_eq_zero h)
      have hj : 1 ≤ j := by
        by_contra hj
        obtain rfl : j = 0 := by omega
        simp [hc'] at hc
      have hsplit : 10 ^ j * c' * 10 ^ 5 = c' * 10 ^ (j + 5) := by
        rw [Nat.pow_add, Nat.mul_comm (10 ^ j) c', Nat.mul_assoc]
      rw [hsplit, exporterCost_mul_pow hc', if_neg (by omega), Nat.add_sub_cancel, Nat.mul_comm]
  · rw [exporterCost_mul_pow hc, if_pos (by omega), show (k : Int) - 6 = e by omega]

theorem cost_text_iff (reader : RowReader) (d : PyDecimal) :
    (reader.cost (numericMicros d)).formatF = d.formatF ↔ CostStable reader d := by
  cases reader with
  | driver =>
    constructor
    · intro h
      have hd := PyDecimal.formatF_inj h.symm (by decide : (-6 : Int) < 0)
      rw [hd]
      exact ⟨rfl, rfl⟩
    · obtain ⟨neg, c, e⟩ := d
      rintro ⟨rfl, rfl⟩
      simp [RowReader.cost, numericMicros]
  | exporter =>
    constructor
    · intro h
      have hstable := exporterCost_stable (numericMicros d)
      have hd : d = exporterCost (numericMicros d) := PyDecimal.formatF_inj h.symm hstable.2.2.1
      rw [← hd] at hstable
      exact hstable
    · intro h
      rw [RowReader.cost, exporterCost_of_stable h]

/-! ## Which rows are accepted -/

theorem sortKeys_costText (c : Option Cost) : (costText c).sortKeys = costText c := by
  cases c <;> rfl

theorem payload_keys_nodup (r : AuditRecord) (ts : Wall) : ((r.payload ts).map Prod.fst).Nodup := by
  simp [AuditRecord.payload]

theorem lookup_cost (r : AuditRecord) (ts : Wall) :
    lookup (r.payload ts) "cost_usd" = some (costText r.costUsd) := by
  simp [AuditRecord.payload, lookup]

theorem lookup_metadata (r : AuditRecord) (ts : Wall) :
    lookup (r.payload ts) "metadata" = some (.obj r.metadata.1) := by
  simp [AuditRecord.payload, lookup]

/-- Cost and metadata enter the canonical text by their texts. -/
theorem canonical_eq_iff {r r' : AuditRecord} {ts : Wall}
    (h : r' = { r with
      ts := r'.ts, metadata := r'.metadata, costUsd := r'.costUsd, contentHash := r'.contentHash }) :
    r'.canonical ts = r.canonical ts ↔
      costText r'.costUsd = costText r.costUsd ∧
        (Value.obj r'.metadata.1).sortKeys = (Value.obj r.metadata.1).sortKeys := by
  constructor
  · intro htext
    have hsort := encode_injective htext
    obtain ⟨ms, hms, _⟩ := sortKeys_obj (r.payload ts)
    have hlookup (k : String) := (lookup_sortKeys (payload_keys_nodup r' ts) (hsort.trans hms) k).symm.trans
      (lookup_sortKeys (payload_keys_nodup r ts) hms k)
    have hcost := hlookup "cost_usd"
    have hmeta := hlookup "metadata"
    rw [lookup_cost, lookup_cost, Option.map_some, Option.map_some, Option.some.injEq,
      sortKeys_costText, sortKeys_costText] at hcost
    rw [lookup_metadata, lookup_metadata, Option.map_some, Option.map_some, Option.some.injEq] at hmeta
    exact ⟨hcost, hmeta⟩
  · rintro ⟨hcost, hmeta⟩
    have hmembers : sortMembers (r'.payload ts) = sortMembers (r.payload ts) := by
      rw [h]
      simp only [AuditRecord.payload, sortMembers, hcost, hmeta]
    rw [AuditRecord.canonical, AuditRecord.canonical, dumps, dumps, Value.sortKeys, Value.sortKeys,
      hmembers]

theorem costText_read_iff (reader : RowReader) (c : Option Cost)
    (hneg : ∀ m, (reader.cost m).Nonneg) :
    costText ((c.map fun c => numericMicros c.1).map fun m => ⟨reader.cost m, hneg m⟩) = costText c ↔
      ∀ x ∈ c, CostStable reader x.1 := by
  cases c with
  | none => simp [costText]
  | some x => simp [costText, nullable, String.ofList_inj, ← cost_text_iff]

/-- The hash of the record is the one it carries. -/
def AuditRecord.Sealed (r : AuditRecord) : Prop :=
  ∃ hash, r.contentHash = some hash ∧ computeContentHash r = some hash

theorem chainToPrevious_sealed {r r' : AuditRecord} {prev : Option String}
    (h : chainToPrevious r prev = some r') : r'.Sealed := by
  obtain ⟨hash, hhash, rfl⟩ := Option.map_eq_some_iff.mp h
  exact ⟨hash, rfl, hhash⟩

theorem prepare_sealed {red : Redaction} {r p : AuditRecord} (h : r.Sealed)
    (hp : prepare red r = some p) : p.Sealed := by
  unfold prepare at hp
  split at hp
  · unfold applyRedaction at hp
    dsimp only at hp
    split at hp
    · rwa [← Option.some.inj hp]
    · exact chainToPrevious_sealed hp
  · rwa [← Option.some.inj hp]

/-- What the insert made of a sealed record. -/
theorem storeRow_spec {p : AuditRecord} {row : AuditColumns} (h : p.Sealed)
    (hrow : storeRow p = some row) (reader : RowReader) (zone : SessionZone) :
    row.contentHash = hexdigest (p.canonical row.ts) ∧ row.metadata = Metadata.jsonb p.metadata ∧
      row.costMicros = p.costUsd.map (fun c => numericMicros c.1) ∧
      readBack reader zone row = { p with
        ts := (readBack reader zone row).ts, metadata := (readBack reader zone row).metadata,
        costUsd := (readBack reader zone row).costUsd
        contentHash := (readBack reader zone row).contentHash } := by
  obtain ⟨hash, hhash, hcompute⟩ := h
  obtain ⟨hash', hhash', hrow⟩ := Option.bind_eq_some_iff.mp hrow
  obtain ⟨ts, hts, hrow⟩ := Option.bind_eq_some_iff.mp hrow
  obtain rfl := Option.some.inj (hhash.symm.trans hhash')
  rw [computeContentHash, hts, Option.map_some, Option.some.injEq] at hcompute
  split at hrow
  · obtain rfl := Option.some.inj hrow
    exact ⟨hcompute.symm, rfl, rfl, rfl⟩
  · contradiction

/-- Up to its cost and its metadata the record read back is the one that was stored. -/
theorem readBack_canonical_iff {p : AuditRecord} {row : AuditColumns} (h : p.Sealed)
    (hrow : storeRow p = some row) (reader : RowReader) (zone : SessionZone) :
    (readBack reader zone row).canonical row.ts = p.canonical row.ts ↔
      (∀ c ∈ p.costUsd, CostStable reader c.1) ∧ (Value.obj p.metadata.1).FloatsStable := by
  obtain ⟨_, hmeta, hmicros, hrest⟩ := storeRow_spec h hrow reader zone
  have hmetadata : (readBack reader zone row).metadata.1 =
      (jsonbMembers p.metadata.1).insertionSort jsonbKeyLe := by
    rw [readBack, hmeta]
    rfl
  rw [canonical_eq_iff hrest, hmetadata, ← Value.jsonb, jsonb_sortKeys_iff p.metadata.2]
  refine and_congr_left' ?_
  rw [readBack, hmicros]
  exact costText_read_iff reader p.costUsd _

/-- The check compares the hashes of two canonical texts. -/
theorem accepted_iff_hexdigest {p : AuditRecord} {row : AuditColumns} (h : p.Sealed)
    (hrow : storeRow p = some row) (reader : RowReader) (zone : SessionZone) :
    Accepted reader zone row ↔
      hexdigest ((readBack reader zone row).canonical row.ts) = hexdigest (p.canonical row.ts) := by
  have hts : (readBack reader zone row).ts.astimezoneUtc = some row.ts :=
    Aware.astimezoneUtc_of_utc (zone.same_instant row.ts)
  rw [Accepted, computeContentHash, hts, Option.map_some, Option.some.injEq,
    (storeRow_spec h hrow reader zone).1]

/-- A stored record is accepted when it is read back exactly when its cost has the
text the column gives back and its metadata holds no negative zero and no float
from `1e16` on. -/
theorem stored_record_accepted_iff (reader : RowReader) (zone : SessionZone) {red : Redaction}
    {r p : AuditRecord} {row : AuditColumns} (hsealed : r.Sealed) (hprepare : prepare red r = some p)
    (hrow : storeRow p = some row)
    (hcf : CollisionFreeOn {encodeUtf8 (p.canonical row.ts),
      encodeUtf8 ((readBack reader zone row).canonical row.ts)}) :
    Accepted reader zone row ↔
      (∀ c ∈ p.costUsd, CostStable reader c.1) ∧ (Value.obj p.metadata.1).FloatsStable := by
  have hp := prepare_sealed hsealed hprepare
  rw [accepted_iff_hexdigest hp hrow, ← readBack_canonical_iff hp hrow]
  exact ⟨hexdigest_inj hcf (by simp) (by simp), congrArg hexdigest⟩

/-- A call priced at `cost`, on 18 May 2026. -/
def pricedCall (cost : Cost) : AuditRecord :=
  { newRecord ⟨3, 0, 0, 0, 0⟩ ⟨63914702400000000, noonMay18_lt_maxWall⟩ "engineer" .build "llm_call"
      "engineer" "prompt" "p1" ⟨[], distinct_empty⟩ with costUsd := some cost }

/-- The call with its hash, at the head of a chain. -/
def sealedCall (cost : Cost) : AuditRecord :=
  { pricedCall cost with
    contentHash := some (hexdigest ((pricedCall cost).canonical
      ⟨63914702400000000, noonMay18_lt_maxWall⟩)) }

theorem sealedCall_sealed (cost : Cost) : (sealedCall cost).Sealed := by
  refine ⟨_, rfl, ?_⟩
  rw [computeContentHash, show (sealedCall cost).ts = Wall.inUtc ⟨63914702400000000, by decide⟩ from rfl,
    Wall.astimezoneUtc_inUtc, Option.map_some]
  rfl

def utcZone : SessionZone := ⟨Wall.inUtc, fun w => by simp [Aware.utc, Wall.inUtc]⟩

theorem storeRow_sealedCall {cost : Cost} (h : Storable (sealedCall cost) ⟨63914702400000000, by decide⟩) :
    ∃ row, storeRow (sealedCall cost) = some row ∧ row.ts = ⟨63914702400000000, by decide⟩ := by
  rw [storeRow, show (sealedCall cost).ts = Wall.inUtc ⟨63914702400000000, by decide⟩ from rfl,
    Wall.astimezoneUtc_inUtc, show (sealedCall cost).contentHash = some _ from rfl,
    Option.bind_some, Option.bind_some, if_pos h]
  exact ⟨_, rfl, rfl⟩

/-- A dollar and a half, to six places. -/
def sixPlaces : Cost := ⟨⟨false, 1500000, -6⟩, by decide⟩

theorem stored_record_accepted_six_places :
    ∃ row, storeRow (sealedCall sixPlaces) = some row ∧ Accepted .driver utcZone row := by
  obtain ⟨row, hrow, _⟩ := storeRow_sealedCall (show Storable (sealedCall sixPlaces) _ by decide +kernel)
  have hstable : (∀ c ∈ (sealedCall sixPlaces).costUsd, CostStable .driver c.1) ∧
      (Value.obj (sealedCall sixPlaces).metadata.1).FloatsStable := by
    refine ⟨fun c hc => ?_, trivial⟩
    obtain rfl := Option.some.inj hc
    exact ⟨rfl, rfl⟩
  have hsame := (readBack_canonical_iff (sealedCall_sealed sixPlaces) hrow .driver utcZone).mpr hstable
  refine ⟨row, hrow, (stored_record_accepted_iff .driver utcZone
    (sealedCall_sealed sixPlaces) (show prepare ⟨[], false⟩ _ = _ from rfl) hrow ?_).mpr hstable⟩
  rw [hsame]
  exact collisionFreeOn_same _

def oneDollar : Cost := ⟨⟨false, 1, 0⟩, by decide⟩

/-- The same dollar as the exporter reads it. -/
def oneDollarRead : Cost := ⟨⟨false, 10, -1⟩, by decide⟩

theorem one_dollar_hashes_differ :
    hexdigest ((pricedCall oneDollarRead).canonical ⟨63914702400000000, by decide⟩) ≠
      hexdigest ((pricedCall oneDollar).canonical ⟨63914702400000000, by decide⟩) := by
  decide +kernel

/-- A cost of `Decimal("1")` comes back as `1.0`, and the record is refused. -/
theorem one_dollar_record_refused :
    ¬ ∀ (reader : RowReader) (zone : SessionZone) (red : Redaction) (r p : AuditRecord)
      (row : AuditColumns), r.Sealed → prepare red r = some p → storeRow p = some row →
        Accepted reader zone row := by
  intro h
  obtain ⟨row, hrow, hts⟩ := storeRow_sealedCall (show Storable (sealedCall oneDollar) _ by decide +kernel)
  have haccepted := h .exporter utcZone ⟨[], false⟩ _ _ row (sealedCall_sealed oneDollar) rfl hrow
  rw [accepted_iff_hexdigest (sealedCall_sealed oneDollar) hrow] at haccepted
  obtain ⟨_, hmeta, hmicros, hrest⟩ :=
    storeRow_spec (sealedCall_sealed oneDollar) hrow .exporter utcZone
  have hread : (readBack .exporter utcZone row).canonical row.ts =
      (pricedCall oneDollarRead).canonical row.ts := by
    refine (canonical_eq_iff (r := pricedCall oneDollarRead) hrest).mpr ⟨?_, ?_⟩
    · rw [readBack, hmicros]
      rfl
    · rw [readBack, hmeta]
      rfl
  rw [hread, hts] at haccepted
  exact one_dollar_hashes_differ haccepted

end SpineFormal.Audit
