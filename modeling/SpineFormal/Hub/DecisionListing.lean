import Mathlib.Data.List.Sort
import SpineFormal.Hub.DecisionRows
import SpineFormal.Json.Loads

/-!
# The listing of decision cards

`alist` takes the rows of the table that pass the filter and lays the cached cards that pass it
over them. A card is one and the same under every spelling of its id; the rows spell it in one
way, the cache as the card came in.
-/

namespace SpineFormal.Hub.Cards

set_option autoImplicit false

/-- The id that a text denotes: the canonical text of a UUID, or the text itself. -/
def logicalId (decisionId : String) : String := (toUuidStr decisionId).getD decisionId

theorem logicalId_uuid (id : UuidText) : logicalId id.val = id.val := by
  rw [logicalId, id.property, Option.getD_some]

theorem map_logicalId (listing : List DecisionCard) :
    (listing.map fun c => logicalId c.decisionId) =
      (listing.map DecisionCard.decisionId).map logicalId := by
  rw [List.map_map]
  rfl

structure DecisionStore where
  /-- `_cards`. -/
  cards : List (String × DecisionCard) := []
  /-- `none` when there is no handle. -/
  db : Option Database := none

def passes (statusFilter : Option DecisionStatus) (status : DecisionStatus) : Bool :=
  statusFilter.all fun s => s = status

/-- Sorted by the time, in reverse; the order of equal times is kept. -/
def newestFirst {α : Type} (time : α → Int) : List α → List α :=
  List.insertionSort fun a b => time b ≤ time a

theorem newestFirst_perm {α : Type} (time : α → Int) (xs : List α) :
    (newestFirst time xs).Perm xs :=
  List.perm_insertionSort _ xs

namespace DecisionStore

variable (st : DecisionStore)

/-- `aput`. -/
def aput (other : Char → DigitKind) (card : DecisionCard) : DecisionStore where
  cards := put Prod.fst (card.decisionId, card) st.cards
  db := st.db.map fun db => persistPut other db card

def cached : List DecisionCard := st.cards.map Prod.snd

/-- The rows that a statement can see. -/
def visibleRows : List DecisionRow :=
  match st.db with
  | some db => if db.reachable then db.rows else []
  | none => []

variable (statusFilter : Option DecisionStatus)

/-- `_SELECT_LIST_SQL`; rows pushed at the same time come in the order of the table. -/
def selectList : List DecisionRow :=
  (newestFirst DecisionRow.pushedAt
    (st.visibleRows.filter fun r => passes statusFilter r.status)).take 500

/-- `_list_from_db`. -/
def listFromDb (repr : Json.Value → String) : Option (List DecisionCard) :=
  (st.selectList statusFilter).mapM (rowToCard repr)

/-- `list`. -/
def list : List DecisionCard :=
  newestFirst DecisionCard.createdAt (st.cached.filter fun c => passes statusFilter c.status)

/-- `alist`; `none` when a row is rejected by the model. -/
def alist (repr : Json.Value → String) : Option (List DecisionCard) :=
  (st.listFromDb statusFilter repr).map fun dbCards =>
    newestFirst DecisionCard.createdAt
      (keyed DecisionCard.decisionId (dbCards ++ st.list statusFilter))

/-- The status of a card: that of its copies in the cache, or else that of its row. -/
def Authoritative (id : String) (status : DecisionStatus) : Prop :=
  (∃ c ∈ st.cached, logicalId c.decisionId = id ∧ c.status = status) ∨
    (∀ c ∈ st.cached, logicalId c.decisionId ≠ id) ∧
      ∃ r ∈ st.visibleRows, r.id.val = id ∧ r.status = status

/-- Every card is listed at most once, and listed when its status passes. -/
structure Lawful (listing : List DecisionCard) : Prop where
  once : (listing.map fun c => logicalId c.decisionId).Nodup
  exact : ∀ id, (∃ c ∈ listing, logicalId c.decisionId = id) ↔
    ∃ status, st.Authoritative id status ∧ passes statusFilter status = true

/-- The ids under which cards are listed. -/
def listedIds : List String :=
  (st.selectList statusFilter).map (fun r => r.id.val) ++
    (st.list statusFilter).map DecisionCard.decisionId

/-- The two sources agree as far as the filter sees. -/
structure Aligned (repr : Json.Value → String) : Prop where
  accepted : ∀ r ∈ st.selectList statusFilter, (rowToCard repr r).isSome = true
  spelled : ∀ a ∈ st.listedIds statusFilter, ∀ b ∈ st.listedIds statusFilter,
    logicalId a = logicalId b → a = b
  fresh : ∀ r ∈ st.selectList statusFilter, (∃ c ∈ st.cached, logicalId c.decisionId = r.id.val) →
    ∃ c ∈ st.cached, logicalId c.decisionId = r.id.val ∧ passes statusFilter c.status = true
  complete : ∀ r ∈ st.visibleRows, passes statusFilter r.status = true →
    r ∉ st.selectList statusFilter → ∃ c ∈ st.cached, logicalId c.decisionId = r.id.val

variable {st statusFilter} {repr : Json.Value → String}

theorem mem_list {c : DecisionCard} :
    c ∈ st.list statusFilter ↔ c ∈ st.cached ∧ passes statusFilter c.status = true := by
  rw [list, (newestFirst_perm _ _).mem_iff, List.mem_filter]

theorem mem_visibleRows_of_selected {r : DecisionRow} (h : r ∈ st.selectList statusFilter) :
    r ∈ st.visibleRows ∧ passes statusFilter r.status = true := by
  have hmem := List.mem_of_mem_take h
  rwa [(newestFirst_perm _ _).mem_iff, List.mem_filter] at hmem

theorem row_unique {r r' : DecisionRow} (hr : r ∈ st.visibleRows) (hr' : r' ∈ st.visibleRows)
    (hid : r.id = r'.id) : r = r' := by
  rw [visibleRows] at hr hr'
  cases hdb : st.db with
  | none =>
    rw [hdb] at hr
    cases hr
  | some db =>
    rw [hdb] at hr hr'
    dsimp only at hr hr'
    split_ifs at hr hr'
    · exact List.inj_on_of_nodup_map db.primaryKey hr hr' hid
    · cases hr

/-- The ids in a listing are those of the two sources, each once. -/
theorem alist_ids {listing : List DecisionCard} (h : st.alist statusFilter repr = some listing) :
    (listing.map DecisionCard.decisionId).Nodup ∧
      ∀ id, id ∈ listing.map DecisionCard.decisionId ↔ id ∈ st.listedIds statusFilter := by
  obtain ⟨dbCards, hdb, rfl⟩ := Option.map_eq_some_iff.mp h
  have hperm := newestFirst_perm DecisionCard.createdAt
    (keyed DecisionCard.decisionId (dbCards ++ st.list statusFilter))
  have hids : dbCards.map DecisionCard.decisionId =
      (st.selectList statusFilter).map fun r => r.id.val :=
    Json.map_of_mapM (fun _ _ hc => (rowToCard_some hc).1) hdb
  constructor
  · exact (hperm.map _).nodup_iff.mpr (nodup_keys_keyed _)
  · intro id
    rw [(hperm.map _).mem_iff, keys_keyed, List.map_append, hids, listedIds]

theorem alist_isSome_iff : (∃ listing, st.alist statusFilter repr = some listing) ↔
    ∀ r ∈ st.selectList statusFilter, (rowToCard repr r).isSome = true := by
  rw [← Json.mapM_isSome_iff, ← Option.isSome_iff_exists, alist, Option.isSome_map]
  rfl

theorem mem_listedIds {id : String} : id ∈ st.listedIds statusFilter ↔
    (∃ r ∈ st.selectList statusFilter, r.id.val = id) ∨
      ∃ c ∈ st.cached, passes statusFilter c.status = true ∧ c.decisionId = id := by
  simp only [listedIds, List.mem_append, List.mem_map, mem_list, and_assoc]

section Listing

variable {listing : List DecisionCard} (hlisting : st.alist statusFilter repr = some listing)
include hlisting

/-- A card is listed under its logical id when one of the two sources lists it. -/
theorem listed_iff (id : String) : (∃ c ∈ listing, logicalId c.decisionId = id) ↔
    ∃ a ∈ st.listedIds statusFilter, logicalId a = id := by
  have hids := (alist_ids hlisting).2
  constructor
  · rintro ⟨c, hc, hid⟩
    exact ⟨c.decisionId, (hids _).mp (List.mem_map_of_mem hc), hid⟩
  · rintro ⟨a, ha, hid⟩
    obtain ⟨c, hc, rfl⟩ := List.mem_map.mp ((hids a).mpr ha)
    exact ⟨c, hc, hid⟩

theorem once_iff : (listing.map fun c => logicalId c.decisionId).Nodup ↔
    ∀ a ∈ st.listedIds statusFilter, ∀ b ∈ st.listedIds statusFilter,
      logicalId a = logicalId b → a = b := by
  obtain ⟨hnodup, hids⟩ := alist_ids hlisting
  rw [map_logicalId, List.nodup_map_iff_inj_on hnodup]
  simp only [hids]

end Listing

theorem lawful_of_aligned (h : st.Aligned statusFilter repr) {listing : List DecisionCard}
    (hlisting : st.alist statusFilter repr = some listing) : st.Lawful statusFilter listing := by
  refine ⟨(once_iff hlisting).mpr h.spelled, ?_⟩
  intro id
  rw [listed_iff hlisting]
  constructor
  · rintro ⟨a, ha, rfl⟩
    rcases mem_listedIds.mp ha with ⟨r, hr, rfl⟩ | ⟨c, hc, hpass, rfl⟩
    · obtain ⟨hvisible, hpass⟩ := mem_visibleRows_of_selected hr
      rw [logicalId_uuid]
      by_cases hcached : ∃ c ∈ st.cached, logicalId c.decisionId = r.id.val
      · obtain ⟨c, hc, hid, hcpass⟩ := h.fresh r hr hcached
        exact ⟨c.status, Or.inl ⟨c, hc, hid, rfl⟩, hcpass⟩
      · refine ⟨r.status, Or.inr ⟨?_, r, hvisible, rfl, rfl⟩, hpass⟩
        exact fun c hc hid => hcached ⟨c, hc, hid⟩
    · exact ⟨c.status, Or.inl ⟨c, hc, rfl, rfl⟩, hpass⟩
  · rintro ⟨status, ⟨c, hc, hid, rfl⟩ | ⟨hnone, r, hr, hid, rfl⟩, hpass⟩
    · exact ⟨c.decisionId, mem_listedIds.mpr (Or.inr ⟨c, hc, hpass, rfl⟩), hid⟩
    · by_cases hselected : r ∈ st.selectList statusFilter
      · refine ⟨r.id.val, mem_listedIds.mpr (Or.inl ⟨r, hselected, rfl⟩), ?_⟩
        rw [logicalId_uuid, hid]
      · obtain ⟨c, hc, hcid⟩ := h.complete r hr hpass hselected
        exact absurd (hcid.trans hid) (hnone c hc)

theorem aligned_of_lawful {listing : List DecisionCard}
    (hlisting : st.alist statusFilter repr = some listing)
    (h : st.Lawful statusFilter listing) : st.Aligned statusFilter repr := by
  refine ⟨alist_isSome_iff.mp ⟨listing, hlisting⟩, (once_iff hlisting).mp h.once, ?_, ?_⟩
  · rintro r hr ⟨c, hc, hid⟩
    have hlisted := (listed_iff hlisting r.id.val).mpr
      ⟨r.id.val, mem_listedIds.mpr (Or.inl ⟨r, hr, rfl⟩), logicalId_uuid r.id⟩
    obtain ⟨status, ⟨c', hc', hid', rfl⟩ | ⟨hnone, -⟩, hpass⟩ := (h.exact r.id.val).mp hlisted
    · exact ⟨c', hc', hid', hpass⟩
    · exact absurd hid (hnone c hc)
  · intro r hr hpass hunselected
    by_contra hcached
    have hauthoritative : st.Authoritative r.id.val r.status :=
      Or.inr ⟨fun c hc hid => hcached ⟨c, hc, hid⟩, r, hr, rfl, rfl⟩
    have hlisted := (h.exact r.id.val).mpr ⟨r.status, hauthoritative, hpass⟩
    obtain ⟨a, ha, hid⟩ := (listed_iff hlisting r.id.val).mp hlisted
    rcases mem_listedIds.mp ha with ⟨r', hr', rfl⟩ | ⟨c, hc, -, rfl⟩
    · rw [logicalId_uuid] at hid
      have hsame := row_unique (mem_visibleRows_of_selected hr').1 hr (Subtype.ext hid)
      exact hunselected (hsame ▸ hr')
    · exact hcached ⟨c, hc, hid⟩

end DecisionStore

/-- The listing shows every card at most once, and exactly those whose status passes, when the
cache and the table agree as far as the filter sees, and only then. -/
theorem alist_lawful_iff (st : DecisionStore) (statusFilter : Option DecisionStatus)
    (repr : Json.Value → String) :
    (∃ listing, st.alist statusFilter repr = some listing ∧ st.Lawful statusFilter listing) ↔
      st.Aligned statusFilter repr := by
  constructor
  · rintro ⟨listing, hlisting, h⟩
    exact DecisionStore.aligned_of_lawful hlisting h
  · intro h
    obtain ⟨listing, hlisting⟩ := DecisionStore.alist_isSome_iff.mpr h.accepted
    exact ⟨listing, hlisting, DecisionStore.lawful_of_aligned h hlisting⟩

/-- A card as `aenqueue_decision` names it, with `uuid4().hex`. -/
def hexCard : DecisionCard :=
  { ackOnly with
    decisionId := "7b0f2c1e52a84c0c9a440d5b7a1f6e21"
    title := "Approve PRD"
    actions := ["ack", "reject"]
    titleLength := by decide }

def hexStore : DecisionStore :=
  DecisionStore.aput { db := some emptyTable } (fun _ => .none) hexCard

/-- The row of the card spells the id with dashes, and the card is listed beside its row. -/
theorem hexCard_twice :
    ((hexStore.alist (some .pending) fun _ => "").map fun listing =>
      listing.map DecisionCard.decisionId) =
        some ["7b0f2c1e-52a8-4c0c-9a44-0d5b7a1f6e21", "7b0f2c1e52a84c0c9a440d5b7a1f6e21"] ∧
    ¬ ∃ listing, hexStore.alist (some .pending) (fun _ => "") = some listing ∧
      hexStore.Lawful (some .pending) listing := by
  have hids : ((hexStore.alist (some .pending) fun _ => "").map fun listing =>
      listing.map DecisionCard.decisionId) =
        some ["7b0f2c1e-52a8-4c0c-9a44-0d5b7a1f6e21", "7b0f2c1e52a84c0c9a440d5b7a1f6e21"] := by
    decide +kernel
  refine ⟨hids, ?_⟩
  rintro ⟨listing, hlisting, honce, -⟩
  rw [hlisting, Option.map_some] at hids
  rw [map_logicalId, Option.some.inj hids] at honce
  exact absurd honce (by decide +kernel)

end SpineFormal.Hub.Cards
