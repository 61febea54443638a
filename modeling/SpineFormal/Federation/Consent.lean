import Mathlib.Data.List.Induction
import Mathlib.Data.List.Sort
import SpineFormal.Base.TextFields

/-!
# Consent between hubs

The registry of hubs, the consent records and the engine that answers whether a
consent class may cross to a peer. A grant inserts a record, a revocation deletes
the records of its triple, so a record of a triple is in the table exactly when
the latest recorded decision on that triple is a grant.

The lookup of `isAllowed` asks for a record that names the peer on either side. It
does not ask who the counterparty is.
-/

namespace SpineFormal.Federation

set_option autoImplicit false

inductive ConsentStatus where
  | pending
  | active
  | suspended
  | revoked
  deriving DecidableEq

structure HubRecord where
  hubId : Uuid
  parentHubId : Option Uuid
  consentStatus : ConsentStatus
  registeredAt : Wall

/-- `spine_federation.hub`, with its `UNIQUE` constraint on `hub_id`. -/
structure HubTable where
  rows : List HubRecord
  hubId_nodup : (rows.map HubRecord.hubId).Nodup

def HubTable.listChildren (t : HubTable) (parent : Uuid) : List HubRecord :=
  (t.rows.filter fun h => decide (h.parentHubId = some parent)).insertionSort
    fun a b => a.registeredAt ≤ b.registeredAt

theorem HubTable.mem_listChildren {t : HubTable} {parent : Uuid} {h : HubRecord} :
    h ∈ t.listChildren parent ↔ h ∈ t.rows ∧ h.parentHubId = some parent := by
  simp [listChildren, List.mem_insertionSort]

theorem HubTable.listChildren_nodup (t : HubTable) (parent : Uuid) :
    ((t.listChildren parent).map HubRecord.hubId).Nodup := by
  have hperm := (List.perm_insertionSort (fun a b : HubRecord => a.registeredAt ≤ b.registeredAt)
    (t.rows.filter fun h => decide (h.parentHubId = some parent))).map HubRecord.hubId
  apply hperm.nodup_iff.mpr
  exact t.hubId_nodup.sublist (List.filter_sublist.map _)

/-- What a consent is about: who lets whom do what. -/
structure ConsentKey where
  childHubId : Uuid
  parentHubId : Uuid
  consentClass : String
  deriving DecidableEq

structure ConsentRecord where
  key : ConsentKey
  grantedBy : String

abbrev ConsentTable := List ConsentRecord

structure MandatoryClass where
  consentClass : String
  rationale : String

structure ConsentEngine where
  mandatoryUpward : List MandatoryClass := []

inductive ConsentError where
  | missingRationale (consentClass : String)
  | grantedByRequired
  | foreignKeyViolation
  | mandatoryFlowDenied (consentClass : String) (rationale : Option String)

/-- The entries of `consent.mandatory_upward`: an absent or empty class is passed over, an absent
or empty rationale is an error. -/
def mandatoryClasses : List (Option String × Option String) → Except ConsentError (List MandatoryClass)
  | [] => .ok []
  | (consentClass, rationale) :: rest =>
    if consentClass.getD "" = "" then mandatoryClasses rest
    else if rationale.getD "" = "" then .error (.missingRationale (consentClass.getD ""))
    else (mandatoryClasses rest).map (⟨consentClass.getD "", rationale.getD ""⟩ :: ·)

def ConsentEngine.fromBundlePolicy (mandatoryUpward : List (Option String × Option String)) :
    Except ConsentError ConsentEngine :=
  (mandatoryClasses mandatoryUpward).map fun m => ⟨m⟩

theorem mandatoryClasses_justified {raw : List (Option String × Option String)}
    {ms : List MandatoryClass} (h : mandatoryClasses raw = .ok ms) :
    ∀ m ∈ ms, m.consentClass ≠ "" ∧ m.rationale ≠ "" := by
  induction raw generalizing ms with
  | nil =>
    obtain rfl : [] = ms := Except.ok.inj h
    intro m hm
    cases hm
  | cons entry rest ih =>
    obtain ⟨consentClass, rationale⟩ := entry
    rw [mandatoryClasses] at h
    split_ifs at h with hclass hrationale
    · exact ih h
    · cases hrest : mandatoryClasses rest with
      | error e =>
        rw [hrest] at h
        cases h
      | ok tail =>
        rw [hrest] at h
        obtain rfl := Except.ok.inj h
        intro m hm
        rcases List.mem_cons.mp hm with rfl | hm
        · exact ⟨hclass, hrationale⟩
        · exact ih hrest m hm

/-- Every flow that overrides a peer's choice comes with its declared rationale. -/
theorem fromBundlePolicy_justified {raw : List (Option String × Option String)} {e : ConsentEngine}
    (h : ConsentEngine.fromBundlePolicy raw = .ok e) :
    ∀ m ∈ e.mandatoryUpward, m.consentClass ≠ "" ∧ m.rationale ≠ "" := by
  unfold ConsentEngine.fromBundlePolicy at h
  cases hraw : mandatoryClasses raw with
  | error err =>
    rw [hraw] at h
    cases h
  | ok ms =>
    rw [hraw] at h
    obtain rfl := Except.ok.inj h
    exact mandatoryClasses_justified hraw

namespace ConsentEngine
variable (e : ConsentEngine)

def isMandatory (consentClass : String) : Bool :=
  e.mandatoryUpward.any fun m => decide (m.consentClass = consentClass)

def mandatoryRationale (consentClass : String) : Option String :=
  (e.mandatoryUpward.find? fun m => decide (m.consentClass = consentClass)).map MandatoryClass.rationale

def isAllowed (t : ConsentTable) (peer : Uuid) (consentClass : String) : Bool :=
  e.isMandatory consentClass ||
    t.any fun r => decide (r.key.consentClass = consentClass ∧
      (r.key.childHubId = peer ∨ r.key.parentHubId = peer))

def revoke (t : ConsentTable) (k : ConsentKey) : Except ConsentError ConsentTable :=
  if e.isMandatory k.consentClass then
    .error (.mandatoryFlowDenied k.consentClass (e.mandatoryRationale k.consentClass))
  else .ok (t.filter fun r => decide (r.key ≠ k))

end ConsentEngine

/-- The two foreign keys of `consent_record` refer to the registry. -/
def grant (hubs : HubTable) (t : ConsentTable) (k : ConsentKey) (grantedBy : String) :
    Except ConsentError ConsentTable :=
  let known := hubs.rows.map HubRecord.hubId
  if grantedBy = "" then .error .grantedByRequired
  else if k.childHubId ∈ known ∧ k.parentHubId ∈ known then .ok (t ++ [⟨k, grantedBy⟩])
  else .error .foreignKeyViolation

/-! ## Histories -/

inductive ConsentCall where
  | grant (key : ConsentKey) (grantedBy : String)
  | revoke (key : ConsentKey)

/-- A call, with the engine it goes through and the registry at that moment. -/
structure ConsentEvent where
  engine : ConsentEngine
  hubs : HubTable
  call : ConsentCall

def ConsentEvent.run (t : ConsentTable) (ev : ConsentEvent) : Except ConsentError ConsentTable :=
  match ev.call with
  | .grant k grantedBy => Federation.grant ev.hubs t k grantedBy
  | .revoke k => ev.engine.revoke t k

/-- A call that raises leaves the table as it was. -/
def ConsentEvent.after (t : ConsentTable) (ev : ConsentEvent) : ConsentTable :=
  match ev.run t with
  | .ok t' => t'
  | .error _ => t

def consentTable (history : List ConsentEvent) : ConsentTable :=
  history.foldl ConsentEvent.after []

/-- The decision a call records: `true` for a grant, `false` for a revocation, nothing when it
raises. -/
def ConsentEvent.decision (ev : ConsentEvent) : Option (ConsentKey × Bool) :=
  match ev.call with
  | .grant k grantedBy =>
    let known := ev.hubs.rows.map HubRecord.hubId
    if grantedBy ≠ "" ∧ k.childHubId ∈ known ∧ k.parentHubId ∈ known then some (k, true) else none
  | .revoke k => if ev.engine.isMandatory k.consentClass then none else some (k, false)

/-- The latest decision recorded on the triple is a grant. -/
def InForce (history : List ConsentEvent) (k : ConsentKey) : Prop :=
  (history.filterMap ConsentEvent.decision).reverse.find? (fun d => decide (d.1 = k)) = some (k, true)

instance (history : List ConsentEvent) (k : ConsentKey) : Decidable (InForce history k) :=
  inferInstanceAs (Decidable (_ = _))

/-- What a call can do: nothing, insert one record, or delete the records of one triple. -/
theorem after_cases (t : ConsentTable) (ev : ConsentEvent) :
    (ev.decision = none ∧ ev.after t = t) ∨
    (∃ k grantedBy, ev.decision = some (k, true) ∧ ev.after t = t ++ [⟨k, grantedBy⟩]) ∨
    (∃ k, ev.decision = some (k, false) ∧
      ev.after t = t.filter fun r => decide (r.key ≠ k)) := by
  obtain ⟨engine, hubs, call⟩ := ev
  cases call with
  | grant k grantedBy =>
    simp only [ConsentEvent.after, ConsentEvent.run, ConsentEvent.decision, grant]
    by_cases hby : grantedBy = ""
    · left
      simp [hby]
    · by_cases hknown : k.childHubId ∈ hubs.rows.map HubRecord.hubId ∧
          k.parentHubId ∈ hubs.rows.map HubRecord.hubId
      · right
        left
        refine ⟨k, grantedBy, if_pos ⟨hby, hknown⟩, ?_⟩
        rw [if_neg hby, if_pos hknown]
      · left
        refine ⟨if_neg fun h => hknown h.2, ?_⟩
        rw [if_neg hby, if_neg hknown]
  | revoke k =>
    simp only [ConsentEvent.after, ConsentEvent.run, ConsentEvent.decision, ConsentEngine.revoke]
    by_cases hm : engine.isMandatory k.consentClass = true
    · left
      refine ⟨if_pos hm, ?_⟩
      rw [if_pos hm]
    · right
      right
      refine ⟨k, if_neg hm, ?_⟩
      rw [if_neg hm]

theorem inForce_concat {history : List ConsentEvent} {ev : ConsentEvent} {k : ConsentKey} :
    InForce (history ++ [ev]) k ↔
      match ev.decision with
      | some d => if d.1 = k then d.2 = true else InForce history k
      | none => InForce history k := by
  unfold InForce
  cases hd : ev.decision with
  | none => simp [hd]
  | some d =>
    obtain ⟨key, granted⟩ := d
    by_cases hk : key = k
    · simp [hd, hk]
    · simp [hd, hk]

/-- A record of the triple is in the table exactly when the latest decision is a grant. -/
theorem mem_consentTable_iff {history : List ConsentEvent} {k : ConsentKey} :
    (∃ r ∈ consentTable history, r.key = k) ↔ InForce history k := by
  induction history using List.reverseRecOn with
  | nil => simp [consentTable, InForce]
  | append_singleton history ev ih =>
    have htable : consentTable (history ++ [ev]) = ev.after (consentTable history) := by
      rw [consentTable, List.foldl_append]
      rfl
    rw [htable, inForce_concat]
    rcases after_cases (consentTable history) ev with
      ⟨hd, ht⟩ | ⟨key, grantedBy, hd, ht⟩ | ⟨key, hd, ht⟩
    · rw [hd, ht]
      exact ih
    · rw [hd, ht]
      by_cases hk : key = k
      · simp [hk]
      · simpa [hk, or_and_right, exists_or] using ih
    · rw [hd, ht]
      by_cases hk : key = k
      · simp [hk]
      · rw [← ih]
        simp only [if_neg hk, List.mem_filter, decide_eq_true_eq]
        constructor
        · rintro ⟨r, ⟨hr, -⟩, hkey⟩
          exact ⟨r, hr, hkey⟩
        · rintro ⟨r, hr, hkey⟩
          refine ⟨r, ⟨hr, fun h => hk ?_⟩, hkey⟩
          exact h.symm.trans hkey

/-- The engine lets a class through that is not mandatory when some consent of that class names the
peer, with whatever hub on the other side. -/
theorem isAllowed_consentTable {e : ConsentEngine} {history : List ConsentEvent} {peer : Uuid}
    {consentClass : String} (hclass : e.isMandatory consentClass = false) :
    e.isAllowed (consentTable history) peer consentClass = true ↔
      ∃ other, InForce history ⟨peer, other, consentClass⟩ ∨
        InForce history ⟨other, peer, consentClass⟩ := by
  simp only [ConsentEngine.isAllowed, hclass, Bool.false_or, List.any_eq_true, decide_eq_true_eq,
    ← mem_consentTable_iff]
  constructor
  · rintro ⟨⟨⟨child, parent, c⟩, by'⟩, hr, rfl, rfl | rfl⟩
    · exact ⟨parent, Or.inl ⟨_, hr, rfl⟩⟩
    · exact ⟨child, Or.inr ⟨_, hr, rfl⟩⟩
  · rintro ⟨other, ⟨r, hr, hkey⟩ | ⟨r, hr, hkey⟩⟩
    · exact ⟨r, hr, by rw [hkey], Or.inl (by rw [hkey])⟩
    · exact ⟨r, hr, by rw [hkey], Or.inr (by rw [hkey])⟩

end SpineFormal.Federation
