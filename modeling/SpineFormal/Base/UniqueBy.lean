import Mathlib.Data.List.Destutter
import Mathlib.Order.OrderDual
import SpineFormal.Base.BestOf
import SpineFormal.Base.StableSort

/-!
# One element for each key, in the order of the keys

`unique_by(f)` of `jq` sorts by the key and keeps the first element of each run of equal
keys. On a list that was sorted by a rank before, it keeps for each key what a pass over
the unsorted list keeps that replaces an element by one of a smaller rank.
-/

namespace SpineFormal

set_option autoImplicit false

variable {α κ ρ : Type} [LinearOrder κ] [LinearOrder ρ]

/-- `unique_by(key)`. -/
def uniqueBy (key : α → κ) (l : List α) : List α :=
  (sortBy key l).destutter fun a b => key a ≠ key b

/-! ## Sorting and selecting -/

section
variable {key : α → κ}

theorem filter_orderedInsert (p : α → Bool) (a : α) {l : List α}
    (hl : l.Pairwise fun b c => key b ≤ key c) :
    (l.orderedInsert (fun a b => key a ≤ key b) a).filter p =
      if p a then (l.filter p).orderedInsert (fun a b => key a ≤ key b) a else l.filter p := by
  induction l with
  | nil => rw [List.orderedInsert_nil, List.filter_cons, List.filter_nil, List.orderedInsert_nil]
  | cons b l ih =>
    obtain ⟨hb, hl⟩ := List.pairwise_cons.mp hl
    rw [List.orderedInsert_cons]
    by_cases hab : key a ≤ key b
    · rw [if_pos hab, List.filter_cons]
      split
      · symm
        cases hf : (b :: l).filter p with
        | nil => rfl
        | cons c rest =>
          have hc : c ∈ b :: l := List.mem_of_mem_filter (hf ▸ List.mem_cons_self)
          have hbc : key b ≤ key c := by
            rcases List.mem_cons.mp hc with rfl | hc
            · exact le_rfl
            · exact hb c hc
          rw [List.orderedInsert_cons, if_pos (hab.trans hbc)]
      · rfl
    · rw [if_neg hab, List.filter_cons, ih hl, List.filter_cons]
      split <;> split
      · rw [List.orderedInsert_cons, if_neg hab]
      · rfl
      · rfl
      · rfl

/-- Selecting after sorting is sorting what was selected. -/
theorem filter_sortBy (p : α → Bool) (l : List α) :
    (sortBy key l).filter p = sortBy key (l.filter p) := by
  induction l with
  | nil => rfl
  | cons a l ih =>
    rw [sortBy_cons, filter_orderedInsert p a (sortBy_pairwise key l), ih, List.filter_cons]
    split <;> rfl

/-- The elements of one key stand in the order in which they came. -/
theorem filter_key_sortBy (l : List α) (k : κ) :
    (sortBy key l).filter (fun a => key a = k) = l.filter fun a => key a = k := by
  rw [filter_sortBy, sortBy_eq_self_iff]
  apply List.pairwise_of_forall_mem_list
  intro a ha b hb
  have hka : key a = k := by simpa using List.of_mem_filter ha
  have hkb : key b = k := by simpa using List.of_mem_filter hb
  exact (hka.trans hkb.symm).le

/-- The first of the smallest elements comes first in the sorted list. -/
theorem head_sortBy {before after : List α} {a : α} (hbefore : ∀ b ∈ before, key a < key b)
    (hafter : ∀ b ∈ after, key a ≤ key b) : (sortBy key (before ++ a :: after)).head? = some a := by
  induction before with
  | nil =>
    rw [List.nil_append, sortBy, List.insertionSort_cons_of_forall_rel _ hafter]
    rfl
  | cons b before ih =>
    obtain ⟨hb, hbefore⟩ := List.forall_mem_cons.mp hbefore
    obtain ⟨rest, hrest⟩ := List.head?_eq_some_iff.mp (ih hbefore)
    rw [List.cons_append, sortBy_cons, hrest, List.orderedInsert_cons, if_neg (not_le.mpr hb)]
    rfl

/-! ## The first of each run -/

theorem mem_destutter'_iff {a : α} {l : List α} (h : (a :: l).Pairwise fun b c => key b ≤ key c)
    (f : α) : f ∈ l.destutter' (fun a b => key a ≠ key b) a ↔
      ((a :: l).filter fun b => key b = key f).head? = some f := by
  induction l generalizing a with
  | nil =>
    rw [List.destutter'_nil, List.mem_singleton, List.filter_cons, List.filter_nil]
    constructor
    · rintro rfl
      simp
    · intro hf
      split at hf
      · exact (Option.some.inj hf).symm
      · cases hf
  | cons b l ih =>
    obtain ⟨ha, hbl⟩ := List.pairwise_cons.mp h
    have hab : key a ≤ key b := ha b List.mem_cons_self
    by_cases hkey : key a = key b
    · have hal : (a :: l).Pairwise fun b c => key b ≤ key c :=
        List.pairwise_cons.mpr ⟨fun c hc => ha c (List.mem_cons_of_mem b hc),
          (List.pairwise_cons.mp hbl).2⟩
      rw [List.destutter'_cons_neg _ (by simp [hkey]), ih hal, List.filter_cons,
        List.filter_cons (x := a)]
      by_cases hf : key a = key f
      · rw [if_pos (by simpa using hf), if_pos (by simpa using hf)]
        rfl
      · rw [if_neg (by simpa using hf), if_neg (by simpa using hf), List.filter_cons,
          if_neg (by simpa [← hkey] using hf)]
    · rw [List.destutter'_cons_pos _ hkey, List.mem_cons, ih hbl, List.filter_cons (x := a)]
      by_cases hf : key a = key f
      · have hnone : (b :: l).filter (fun c => key c = key f) = [] := by
          rw [List.filter_eq_nil_iff]
          intro c hc
          have hbc : key b ≤ key c := by
            rcases List.mem_cons.mp hc with rfl | hc
            · exact le_rfl
            · exact (List.pairwise_cons.mp hbl).1 c hc
          have hlt : key f < key c := hf ▸ (lt_of_le_of_ne hab hkey).trans_le hbc
          simpa using hlt.ne'
        rw [if_pos (by simpa using hf), hnone]
        simp [eq_comm]
      · rw [if_neg (by simpa using hf)]
        constructor
        · rintro (rfl | h)
          · exact absurd rfl hf
          · exact h
        · exact .inr

/-- Kept is the first element of its key. -/
theorem mem_uniqueBy_iff {l : List α} {f : α} :
    f ∈ uniqueBy key l ↔ (l.filter fun a => key a = key f).head? = some f := by
  rw [← filter_key_sortBy, uniqueBy]
  cases hs : sortBy key l with
  | nil => simp
  | cons a rest =>
    rw [List.destutter_cons']
    exact mem_destutter'_iff (hs ▸ sortBy_pairwise key l) f

theorem mem_of_mem_uniqueBy {l : List α} {f : α} (h : f ∈ uniqueBy key l) : f ∈ l :=
  List.mem_of_mem_filter (List.mem_of_mem_head? (mem_uniqueBy_iff.mp h))

/-- No key is lost. -/
theorem exists_mem_uniqueBy {l : List α} {a : α} (ha : a ∈ l) : ∃ f ∈ uniqueBy key l, key f = key a := by
  have hmem : a ∈ l.filter fun b => key b = key a := List.mem_filter.mpr ⟨ha, by simp⟩
  obtain ⟨f, hf⟩ := Option.isSome_iff_exists.mp (List.isSome_head?.mpr (List.ne_nil_of_mem hmem))
  have hkey : key f = key a := by simpa using List.of_mem_filter (List.mem_of_mem_head? hf)
  exact ⟨f, mem_uniqueBy_iff.mpr (hkey ▸ hf), hkey⟩

theorem uniqueBy_pairwise (l : List α) : (uniqueBy key l).Pairwise fun a b => key a < key b := by
  have hle : (uniqueBy key l).Pairwise fun a b => key a ≤ key b :=
    (sortBy_pairwise key l).sublist (List.destutter_sublist _ _)
  have hne : (uniqueBy key l).IsChain fun a b => key a ≠ key b := List.isChain_destutter _ _
  have htrans : IsTrans α fun a b => key a < key b := ⟨fun _ _ _ => lt_trans⟩
  apply List.isChain_iff_pairwise.mp
  rw [List.isChain_iff_getElem] at hne ⊢
  intro i hi
  apply lt_of_le_of_ne _ (hne i hi)
  exact List.pairwise_iff_getElem.mp hle i (i + 1) (Nat.lt_of_succ_lt hi) hi (Nat.lt_succ_self i)

end

/-- Of a list sorted by rank, what is kept is of the smallest rank of its key. -/
theorem rank_le_of_mem_uniqueBy {key : α → κ} {rank : α → ρ} {l : List α} {f a : α}
    (hf : f ∈ uniqueBy key (sortBy rank l)) (ha : a ∈ l) (hkey : key a = key f) : rank f ≤ rank a := by
  obtain ⟨rest, hrest⟩ := List.head?_eq_some_iff.mp (mem_uniqueBy_iff.mp hf)
  have hmem : a ∈ (sortBy rank l).filter fun b => key b = key f :=
    List.mem_filter.mpr ⟨(mem_sortBy rank).mpr ha, by simpa using hkey⟩
  have hsorted := (sortBy_pairwise rank l).filter fun b => decide (key b = key f)
  rw [hrest] at hmem hsorted
  rcases List.mem_cons.mp hmem with rfl | hmem
  · exact le_rfl
  · exact (List.pairwise_cons.mp hsorted).1 a hmem

/-- What is kept of a list sorted by rank: of each key the earliest of the smallest rank. -/
theorem uniqueBy_sortBy_perm (key : α → κ) (rank : α → ρ) (l : List α) :
    (uniqueBy key (sortBy rank l)).Perm (bestOf key (fun x y => rank x < rank y) l) := by
  have hnodup : (uniqueBy key (sortBy rank l)).Nodup := by
    apply (uniqueBy_pairwise _).imp
    rintro a b hlt rfl
    exact lt_irrefl _ hlt
  rw [List.perm_ext_iff_of_nodup hnodup (List.Nodup.of_map key (nodup_keys_bestOf l))]
  intro f
  rw [mem_uniqueBy_iff, filter_sortBy, mem_bestOf_iff]
  cases hf : l.filter fun a => key a = key f with
  | nil => simp [sortBy]
  | cons x rest =>
    have hreplaces : ∀ a b, decide (rank a < rank b) = true ↔
        OrderDual.toDual (rank b) < OrderDual.toDual (rank a) := fun a b => by simp
    obtain ⟨before, after, hsplit, hbefore, hafter⟩ := champion_earliest (ρ := ρᵒᵈ) hreplaces x rest
    have hhead : (sortBy rank (before ++ champion (fun x y => rank x < rank y) x rest :: after)).head? =
        some (champion (fun x y => rank x < rank y) x rest) := head_sortBy hbefore hafter
    rw [← hsplit] at hhead
    rw [hhead, Option.some_inj]
    constructor
    · rintro rfl
      exact ⟨x, rest, rfl, rfl⟩
    · rintro ⟨y, rest', heq, rfl⟩
      obtain ⟨rfl, rfl⟩ := List.cons.inj heq
      rfl

end SpineFormal
