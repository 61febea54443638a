import Mathlib.Data.List.Sort
import Mathlib.Data.List.TakeWhile
import Mathlib.Order.Lattice

/-!
# Stable sorting by a key

`sorted(xs, key=f)`: elements of one key keep the order they had. What holds between the
elements of the sorted list, and on which lists the order of the input does not show.
-/

namespace SpineFormal

set_option autoImplicit false

section
variable {α β κ : Type} [LinearOrder κ]

def sortBy (key : α → κ) (l : List α) : List α := l.insertionSort fun a b => key a ≤ key b

variable (key : α → κ)

theorem sortBy_cons (a : α) (l : List α) :
    sortBy key (a :: l) = (sortBy key l).orderedInsert (fun a b => key a ≤ key b) a := rfl

theorem sortBy_perm (l : List α) : (sortBy key l).Perm l := List.perm_insertionSort _ l

theorem mem_sortBy {l : List α} {a : α} : a ∈ sortBy key l ↔ a ∈ l := List.mem_insertionSort _

theorem sortBy_pairwise (l : List α) : (sortBy key l).Pairwise fun a b => key a ≤ key b := by
  have htotal : Std.Total fun a b => key a ≤ key b := ⟨fun a b => le_total (key a) (key b)⟩
  have htrans : IsTrans α fun a b => key a ≤ key b := ⟨fun _ _ _ => le_trans⟩
  exact List.pairwise_insertionSort _ l

/-- A list is sorted already exactly when its keys do not go down. -/
theorem sortBy_eq_self_iff (l : List α) :
    sortBy key l = l ↔ l.Pairwise fun a b => key a ≤ key b := by
  constructor
  · intro h
    exact h ▸ sortBy_pairwise key l
  · exact List.Pairwise.insertionSort_eq

/-- Mapping before sorting is mapping after sorting by the key of the image. -/
theorem sortBy_map (f : β → α) (l : List β) :
    sortBy key (l.map f) = (sortBy (fun b => key (f b)) l).map f :=
  (List.map_insertionSort _ _ f l fun _ _ _ _ => Iff.rfl).symm

variable {key}

/-- Where an element is put into a sorted list, it comes before those of its key. -/
theorem pairwise_orderedInsert_iff (T : α → α → Prop) {a : α} {l : List α}
    (h : l.Pairwise fun b c => key b ≤ key c) :
    (l.orderedInsert (fun a b => key a ≤ key b) a).Pairwise T ↔
      (∀ b ∈ l, if key a ≤ key b then T a b else T b a) ∧ l.Pairwise T := by
  induction l with
  | nil => simp
  | cons b l ih =>
    obtain ⟨hb, hl⟩ := List.pairwise_cons.mp h
    rw [List.orderedInsert_cons]
    by_cases hab : key a ≤ key b
    · have hall : ∀ c ∈ b :: l, key a ≤ key c :=
        List.forall_mem_cons.mpr ⟨hab, fun c hc => hab.trans (hb c hc)⟩
      rw [if_pos hab, List.pairwise_cons]
      refine and_congr ?_ Iff.rfl
      exact forall₂_congr fun c hc => by rw [if_pos (hall c hc)]
    · rw [if_neg hab, List.pairwise_cons, List.pairwise_cons, ih hl, List.forall_mem_cons,
        if_neg hab]
      simp only [List.mem_orderedInsert, forall_eq_or_imp]
      tauto

/-- What holds along the sorted list, told of the list as it came. -/
theorem pairwise_sortBy_iff (T : α → α → Prop) (l : List α) :
    (sortBy key l).Pairwise T ↔ l.Pairwise fun a b => if key a ≤ key b then T a b else T b a := by
  induction l with
  | nil => simp [sortBy]
  | cons a l ih =>
    rw [sortBy_cons, pairwise_orderedInsert_iff T (sortBy_pairwise key l), ih, List.pairwise_cons]
    simp only [mem_sortBy]

/-- Elements that are the same where they have the same key are sorted alike in any order. -/
theorem sortBy_congr {l l' : List α} (hl : l.Perm l')
    (hkey : ∀ a ∈ l, ∀ b ∈ l, key a = key b → a = b) : sortBy key l = sortBy key l' := by
  have hperm : (sortBy key l).Perm (sortBy key l') :=
    (sortBy_perm key l).trans (hl.trans (sortBy_perm key l').symm)
  refine hperm.eq_of_pairwise ?_ (sortBy_pairwise key l) (sortBy_pairwise key l')
  intro a b ha hb hab hba
  apply hkey a ((mem_sortBy key).mp ha) b
  · exact hl.mem_iff.mpr ((mem_sortBy key).mp hb)
  · exact le_antisymm hab hba

/-- Two elements of one key stand next to each other when they came first, in their order. -/
theorem sortBy_cons_cons {a b : α} (h : key a = key b) (l : List α) :
    sortBy key (a :: b :: l) =
      (sortBy key l).takeWhile (fun c => ¬ key a ≤ key c) ++
        a :: b :: (sortBy key l).dropWhile fun c => ¬ key a ≤ key c := by
  have hsplit := List.orderedInsert_eq_take_drop (fun a b => key a ≤ key b) b (sortBy key l)
  rw [sortBy_cons, sortBy_cons, hsplit, ← h, List.orderedInsert_eq_take_drop,
    List.takeWhile_append_of_pos, List.dropWhile_append_of_pos]
  · simp [h]
  · exact fun c hc => List.mem_takeWhile_imp (p := fun c => decide ¬key a ≤ key c) hc
  · exact fun c hc => List.mem_takeWhile_imp (p := fun c => decide ¬key a ≤ key c) hc

end

end SpineFormal
