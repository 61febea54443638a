import SpineFormal.Base.Sha256
import SpineFormal.Federation.Consent

/-!
# The update cascade

The parent's half of an update: the rows of `update_distribution`, the statements
`approve_and_apply` and `reject` run on them, and the fan-out to the children. A
child that is active and that the consent engine lets through gets one pending
row.

`signatureVerifier` is a field of the cascade that none of its methods reads.
-/

namespace SpineFormal.Federation

set_option autoImplicit false

inductive RolloutStatus where
  | pending
  | inProgress
  | completed
  | failed
  | rolledBack
  deriving DecidableEq

structure UpdateRecord where
  id : Uuid
  sourceHubId : Uuid
  targetHubId : Uuid
  bundleVersion : String
  signature : Bytes
  rolloutStatus : RolloutStatus := .pending
  approvedBy : Option String := none

structure UpdateCascade where
  localHubId : Uuid
  consentEngine : ConsentEngine := {}
  signatureVerifier : Bytes → Bytes → String → Bool := fun _ _ _ => true

structure FederationDb where
  updates : List UpdateRecord
  hubs : HubTable
  consents : ConsentTable

def fetchUpdate (updates : List UpdateRecord) (id : Uuid) : Option UpdateRecord :=
  updates.find? fun r => decide (r.id = id)

/-- `UPDATE ... WHERE id = ...`: the approver is written only when one is given, and the status the
row has is not asked for. -/
def setStatus (updates : List UpdateRecord) (id : Uuid) (status : RolloutStatus)
    (approvedBy : Option String) : List UpdateRecord :=
  updates.map fun r =>
    if r.id = id then { r with rolloutStatus := status, approvedBy := approvedBy.or r.approvedBy }
    else r

def statusOf (updates : List UpdateRecord) (id : Uuid) : Option RolloutStatus :=
  (fetchUpdate updates id).map UpdateRecord.rolloutStatus

theorem statusOf_setStatus (updates : List UpdateRecord) (id v : Uuid) (status : RolloutStatus)
    (approvedBy : Option String) :
    statusOf (setStatus updates id status approvedBy) v =
      if v = id then (statusOf updates v).map fun _ => status else statusOf updates v := by
  induction updates with
  | nil => simp [statusOf, fetchUpdate, setStatus]
  | cons r rest ih =>
    simp only [statusOf, fetchUpdate, setStatus, List.map_cons] at ih ⊢
    by_cases hr : r.id = id
    · by_cases hv : v = id
      · simp [hr, hv]
      · have hne : ¬ id = v := fun h => hv h.symm
        simpa [hr, hne, hv] using ih
    · by_cases hv : r.id = v
      · have hne : ¬ v = id := fun h => hr (hv.trans h)
        simp [hv, hne]
      · simpa [hr, hv] using ih

/-- One `INSERT` of `_insert_child_update`. -/
def childUpdate (c : UpdateCascade) (rec : UpdateRecord) (newId : Uuid) (child : HubRecord) :
    UpdateRecord where
  id := newId
  sourceHubId := c.localHubId
  targetHubId := child.hubId
  bundleVersion := rec.bundleVersion
  signature := rec.signature

/-- The two `continue` guards of the loop over the children. -/
def offered (c : UpdateCascade) (consents : ConsentTable) (child : HubRecord) : Bool :=
  decide (child.consentStatus = .active) &&
    c.consentEngine.isAllowed consents child.hubId "update_push"

structure CascadeOutcome where
  localUpdateId : Uuid
  localStatus : RolloutStatus
  childrenAttempted : Nat := 0
  childrenSucceeded : Nat := 0
  childrenFailed : Nat := 0
  notes : String := ""

/-- The loop. `insert` is what the database answers: the new row's id, or nothing when it raises. -/
def cascadeLoop (c : UpdateCascade) (consents : ConsentTable) (rec : UpdateRecord)
    (insert : HubRecord → Option Uuid) (o : CascadeOutcome) :
    List HubRecord → List UpdateRecord × CascadeOutcome
  | [] => ([], o)
  | child :: rest =>
    if offered c consents child then
      match insert child with
      | some newId =>
        let p := cascadeLoop c consents rec insert { o with
          childrenAttempted := o.childrenAttempted + 1
          childrenSucceeded := o.childrenSucceeded + 1 } rest
        (childUpdate c rec newId child :: p.1, p.2)
      | none => cascadeLoop c consents rec insert { o with
          childrenAttempted := o.childrenAttempted + 1
          childrenFailed := o.childrenFailed + 1 } rest
    else cascadeLoop c consents rec insert o rest

/-- The rows inserted for the children, and the outcome. -/
def cascadeToChildren (c : UpdateCascade) (db : FederationDb) (rec : UpdateRecord)
    (approvedBy : String) (insert : HubRecord → Option Uuid) : List UpdateRecord × CascadeOutcome :=
  cascadeLoop c db.consents rec insert
    { localUpdateId := rec.id, localStatus := .completed, notes := "approved_by=" ++ approvedBy }
    (db.hubs.listChildren c.localHubId)

section Loop
variable {c : UpdateCascade} {consents : ConsentTable} {rec : UpdateRecord}
variable {insert : HubRecord → Option Uuid}

theorem mem_cascadeLoop {r : UpdateRecord} {o : CascadeOutcome} {children : List HubRecord} :
    r ∈ (cascadeLoop c consents rec insert o children).1 ↔
      ∃ child ∈ children, offered c consents child = true ∧
        ∃ newId, insert child = some newId ∧ r = childUpdate c rec newId child := by
  induction children generalizing o with
  | nil => simp [cascadeLoop]
  | cons child rest ih =>
    rw [cascadeLoop]
    by_cases hoffered : offered c consents child = true
    · cases hinsert : insert child with
      | none => simp [hoffered, hinsert, ih]
      | some newId => simp [hoffered, hinsert, ih]
    · simp [hoffered, ih]

/-- Every attempt is counted once, and the successes are the rows. -/
theorem cascadeLoop_counts {o : CascadeOutcome} {children : List HubRecord} :
    (cascadeLoop c consents rec insert o children).2.childrenSucceeded =
        o.childrenSucceeded + (cascadeLoop c consents rec insert o children).1.length ∧
      (cascadeLoop c consents rec insert o children).2.childrenAttempted + o.childrenSucceeded +
          o.childrenFailed =
        (cascadeLoop c consents rec insert o children).2.childrenSucceeded +
          (cascadeLoop c consents rec insert o children).2.childrenFailed + o.childrenAttempted := by
  induction children generalizing o with
  | nil => simp only [cascadeLoop, List.length_nil]; omega
  | cons child rest ih =>
    rw [cascadeLoop]
    split_ifs
    · cases insert child with
      | none =>
        obtain ⟨hsucceeded, hattempted⟩ := @ih { o with
          childrenAttempted := o.childrenAttempted + 1
          childrenFailed := o.childrenFailed + 1 }
        dsimp only at hsucceeded hattempted ⊢
        omega
      | some newId =>
        obtain ⟨hsucceeded, hattempted⟩ := @ih { o with
          childrenAttempted := o.childrenAttempted + 1
          childrenSucceeded := o.childrenSucceeded + 1 }
        dsimp only at hsucceeded hattempted ⊢
        rw [List.length_cons]
        omega
    · exact ih

theorem cascadeToChildren_counts {db : FederationDb} {approvedBy : String} :
    let p := cascadeToChildren c db rec approvedBy insert
    p.2.childrenSucceeded = p.1.length ∧
      p.2.childrenAttempted = p.2.childrenSucceeded + p.2.childrenFailed := by
  obtain ⟨hsucceeded, hattempted⟩ := @cascadeLoop_counts c db.consents rec insert
    { localUpdateId := rec.id, localStatus := .completed, notes := "approved_by=" ++ approvedBy }
    (db.hubs.listChildren c.localHubId)
  dsimp only at hsucceeded hattempted
  constructor
  · rw [cascadeToChildren, hsucceeded, Nat.zero_add]
  · rw [cascadeToChildren]
    omega

end Loop

/-! ## Consent -/

/-- A registered child of the hub whose link is active. -/
def ActiveChild (hubs : HubTable) (localHubId x : Uuid) : Prop :=
  ∃ h ∈ hubs.rows, h.hubId = x ∧ h.parentHubId = some localHubId ∧ h.consentStatus = .active

/-- The hub `x` gets a row from the cascade. -/
def Receives (c : UpdateCascade) (db : FederationDb) (rec : UpdateRecord) (approvedBy : String)
    (insert : HubRecord → Option Uuid) (x : Uuid) : Prop :=
  ∃ r ∈ (cascadeToChildren c db rec approvedBy insert).1, r.targetHubId = x

theorem receives_iff {c : UpdateCascade} {db : FederationDb} {rec : UpdateRecord}
    {approvedBy : String} {insert : HubRecord → Option Uuid} {x : Uuid}
    (hinsert : ∀ h, (insert h).isSome) :
    Receives c db rec approvedBy insert x ↔
      ActiveChild db.hubs c.localHubId x ∧
        c.consentEngine.isAllowed db.consents x "update_push" = true := by
  simp only [Receives, cascadeToChildren, mem_cascadeLoop, HubTable.mem_listChildren, offered,
    Bool.and_eq_true, decide_eq_true_eq]
  constructor
  · rintro ⟨r, ⟨h, ⟨hrow, hparent⟩, ⟨hactive, hallowed⟩, newId, -, rfl⟩, rfl⟩
    exact ⟨⟨h, hrow, rfl, hparent, hactive⟩, hallowed⟩
  · rintro ⟨⟨h, hrow, rfl, hparent, hactive⟩, hallowed⟩
    obtain ⟨newId, hnew⟩ := Option.isSome_iff_exists.mp (hinsert h)
    exact ⟨_, ⟨h, ⟨hrow, hparent⟩, ⟨hactive, hallowed⟩, newId, hnew, rfl⟩, rfl⟩

/-- The cascade follows the consents that the children gave this hub exactly when no active child
has a consent of this class with another hub only. -/
theorem cascade_follows_consent_iff {c : UpdateCascade} {hubs : HubTable}
    {updates : List UpdateRecord} {history : List ConsentEvent} {rec : UpdateRecord}
    {approvedBy : String} {insert : HubRecord → Option Uuid}
    (hclass : c.consentEngine.isMandatory "update_push" = false)
    (hinsert : ∀ h, (insert h).isSome) :
    (∀ x, Receives c ⟨updates, hubs, consentTable history⟩ rec approvedBy insert x ↔
      ActiveChild hubs c.localHubId x ∧ InForce history ⟨x, c.localHubId, "update_push"⟩) ↔
    ∀ x other, ActiveChild hubs c.localHubId x →
      InForce history ⟨x, other, "update_push"⟩ ∨ InForce history ⟨other, x, "update_push"⟩ →
        InForce history ⟨x, c.localHubId, "update_push"⟩ := by
  simp only [receives_iff hinsert, isAllowed_consentTable hclass]
  constructor
  · intro h x other hchild hother
    exact ((h x).mp ⟨hchild, other, hother⟩).2
  · intro h x
    constructor
    · rintro ⟨hchild, other, hother⟩
      exact ⟨hchild, h x other hchild hother⟩
    · rintro ⟨hchild, hforce⟩
      exact ⟨hchild, c.localHubId, Or.inl hforce⟩

/-- A hub id with the given node field. -/
def hubUuid (n : Fin (2 ^ 48)) : Uuid := ⟨0, 0, 0, 0, n⟩

/-- Hub 1 with its active child 2, and an unrelated hub 3. -/
def threeHubs : HubTable where
  rows := [⟨hubUuid 1, none, .active, ⟨0, by decide⟩⟩,
    ⟨hubUuid 2, some (hubUuid 1), .active, ⟨1, by decide⟩⟩,
    ⟨hubUuid 3, none, .active, ⟨2, by decide⟩⟩]
  hubId_nodup := by decide

/-- Hub 2 lets the given hub push updates. -/
def pushConsent (parent : Uuid) : ConsentEvent :=
  ⟨{}, threeHubs, .grant ⟨hubUuid 2, parent, "update_push"⟩ "admin"⟩

def sampleUpdate : UpdateRecord := ⟨hubUuid 9, hubUuid 3, hubUuid 1, "v1.0.0", [0], .pending, none⟩

theorem activeChild_two : ActiveChild threeHubs (hubUuid 1) (hubUuid 2) :=
  ⟨_, List.mem_cons_of_mem _ List.mem_cons_self, rfl, rfl, rfl⟩

/-- Hub 2 consented to its own parent and to hub 3: it receives the update. -/
theorem cascade_follows_consent_iff_two_consents :
    Receives ⟨hubUuid 1, {}, fun _ _ _ => true⟩
      ⟨[], threeHubs, consentTable [pushConsent (hubUuid 3), pushConsent (hubUuid 1)]⟩ sampleUpdate
      "admin" (fun _ => some (hubUuid 10)) (hubUuid 2) := by
  refine ((cascade_follows_consent_iff rfl fun _ => rfl).mpr ?_ (hubUuid 2)).mpr
    ⟨activeChild_two, by decide⟩
  intro x other hchild _
  have hx : x = hubUuid 2 := by
    obtain ⟨h, hrow, rfl, hparent, -⟩ := hchild
    revert hparent
    simp only [threeHubs, List.mem_cons, List.not_mem_nil, or_false] at hrow
    rcases hrow with rfl | rfl | rfl
    · intro hparent
      cases hparent
    · intro _
      rfl
    · intro hparent
      cases hparent
  rw [hx]
  decide

/-- Hub 2 consented to hub 3 only, and the cascade of hub 1 gives it a row. -/
theorem foreign_consent_lets_update_through :
    ¬ ∀ (c : UpdateCascade) (hubs : HubTable) (updates : List UpdateRecord)
      (history : List ConsentEvent) (rec : UpdateRecord) (approvedBy : String)
      (insert : HubRecord → Option Uuid),
      c.consentEngine.isMandatory "update_push" = false → (∀ h, (insert h).isSome) →
      ∀ x, Receives c ⟨updates, hubs, consentTable history⟩ rec approvedBy insert x ↔
        ActiveChild hubs c.localHubId x ∧ InForce history ⟨x, c.localHubId, "update_push"⟩ := by
  intro h
  have hinsert : ∀ h : HubRecord, ((fun _ => some (hubUuid 10)) h : Option Uuid).isSome := fun _ => rfl
  have hreceives : Receives ⟨hubUuid 1, {}, fun _ _ _ => true⟩
      ⟨[], threeHubs, consentTable [pushConsent (hubUuid 3)]⟩ sampleUpdate "admin"
      (fun _ => some (hubUuid 10)) (hubUuid 2) :=
    (receives_iff hinsert).mpr ⟨activeChild_two, by decide⟩
  exact absurd ((h _ _ _ _ _ _ _ rfl hinsert _).mp hreceives).2 (by decide)

end SpineFormal.Federation
