import Mathlib.Data.List.Basic
import Mathlib.Data.List.Induction
import Mathlib.Order.Lattice

/-!
# One element for each key

A loop over a list that keeps, for each key, the best element so far in a dictionary. A new
key goes to the end, a better element takes the place of the one that stands there.
-/

namespace SpineFormal

set_option autoImplicit false

universe u v w
variable {α : Type u} {κ : Type v} [DecidableEq κ] (key : α → κ) (replaces : α → α → Bool)

/-- `seen[k] = x` where `k` is new or `x` replaces what is there. -/
def keepBetter (x : α) : List α → List α
  | [] => [x]
  | y :: ys =>
    if key y = key x then (if replaces x y then x else y) :: ys else y :: keepBetter x ys

def bestOf (xs : List α) : List α := xs.foldl (fun seen x => keepBetter key replaces x seen) []

/-- What stays of an element and those after it that share its key. -/
def champion (y : α) (xs : List α) : α := xs.foldl (fun y x => if replaces x y then x else y) y

variable {key replaces}

theorem champion_cons (y x : α) (xs : List α) :
    champion replaces y (x :: xs) = champion replaces (if replaces x y then x else y) xs := rfl

theorem champion_mem (y : α) (xs : List α) : champion replaces y xs ∈ y :: xs := by
  induction xs generalizing y with
  | nil => exact List.mem_singleton.mpr rfl
  | cons x xs ih =>
    rw [champion_cons]
    have h := ih (if replaces x y then x else y)
    split at h
    · rename_i hr
      rw [if_pos hr]
      exact List.mem_cons_of_mem y h
    · rename_i hr
      rw [if_neg hr]
      rcases List.mem_cons.mp h with h | h
      · rw [h]
        exact List.mem_cons_self
      · exact List.mem_cons_of_mem y (List.mem_cons_of_mem x h)

theorem champion_append (y : α) (xs zs : List α) :
    champion replaces y (xs ++ zs) = champion replaces (champion replaces y xs) zs :=
  List.foldl_append ..

theorem champion_eq_self {y : α} {xs : List α} (h : ∀ x ∈ xs, replaces x y = false) :
    champion replaces y xs = y := by
  induction xs with
  | nil => rfl
  | cons x xs ih =>
    obtain ⟨hx, hxs⟩ := List.forall_mem_cons.mp h
    rw [champion_cons, if_neg (by simp [hx]), ih hxs]

/-- The champion has replaced the one before it, and nothing after replaces it. -/
theorem champion_split (replaces : α → α → Bool) (y : α) (xs : List α) :
    ∃ before after, y :: xs = before ++ champion replaces y xs :: after ∧
      (∀ z ∈ after, replaces z (champion replaces y xs) = false) ∧
        ∀ b bs, before = b :: bs →
          replaces (champion replaces y xs) (champion replaces b bs) = true := by
  induction xs using List.reverseRecOn with
  | nil => exact ⟨[], [], rfl, by simp, by simp⟩
  | append_singleton xs x ih =>
    have hstep : champion replaces y (xs ++ [x]) =
        if replaces x (champion replaces y xs) then x else champion replaces y xs :=
      champion_append y xs [x]
    by_cases hx : replaces x (champion replaces y xs) = true
    · rw [hstep, if_pos hx]
      refine ⟨y :: xs, [], rfl, by simp, ?_⟩
      intro b bs h
      obtain ⟨rfl, rfl⟩ := List.cons.inj h
      exact hx
    · rw [hstep, if_neg hx]
      obtain ⟨before, after, hsplit, hafter, hbefore⟩ := ih
      refine ⟨before, after ++ [x], ?_, ?_, hbefore⟩
      · rw [← List.cons_append, hsplit, List.append_assoc, List.cons_append]
      · rw [List.forall_mem_append, List.forall_mem_singleton]
        exact ⟨hafter, by simpa using hx⟩

theorem foldl_keepBetter_cons (y : α) (ys xs : List α) :
    xs.foldl (fun seen x => keepBetter key replaces x seen) (y :: ys) =
      champion replaces y (xs.filter fun x => key x = key y) ::
        (xs.filter fun x => key x ≠ key y).foldl (fun seen x => keepBetter key replaces x seen) ys := by
  induction xs generalizing y ys with
  | nil => rfl
  | cons x xs ih =>
    rw [List.foldl_cons, keepBetter]
    by_cases hkey : key y = key x
    · have hy : key (if replaces x y then x else y) = key y := by
        split
        · exact hkey.symm
        · rfl
      rw [if_pos hkey, ih, hy, List.filter_cons_of_pos (by simp [hkey]), champion_cons,
        List.filter_cons_of_neg (by simp [hkey])]
    · have hx : key x ≠ key y := fun h => hkey h.symm
      rw [if_neg hkey, ih, List.filter_cons_of_neg (by simp [hx]),
        List.filter_cons_of_pos (by simp [hx]), List.foldl_cons]

/-- The first element's key is settled by the elements that share it. -/
theorem bestOf_cons (x : α) (xs : List α) :
    bestOf key replaces (x :: xs) = champion replaces x (xs.filter fun y => key y = key x) ::
      bestOf key replaces (xs.filter fun y => key y ≠ key x) :=
  foldl_keepBetter_cons x [] xs

/-- Induction over a list one key at a time. -/
theorem keys_induction (key : α → κ) {P : List α → Prop} (nil : P [])
    (cons : ∀ x xs, P (xs.filter fun y => key y ≠ key x) → P (x :: xs)) (xs : List α) : P xs := by
  induction h : xs.length using Nat.strongRecOn generalizing xs with
  | _ n ih =>
    cases xs with
    | nil => exact nil
    | cons x xs =>
      refine cons x xs (ih _ ?_ _ rfl)
      rw [← h, List.length_cons]
      exact Nat.lt_succ_of_le (List.length_filter_le ..)

theorem mem_of_mem_bestOf {xs : List α} {x : α} (h : x ∈ bestOf key replaces xs) : x ∈ xs := by
  induction xs using keys_induction key with
  | nil => exact h
  | cons y ys ih =>
    rw [bestOf_cons, List.mem_cons] at h
    rcases h with rfl | h
    · rcases List.mem_cons.mp (champion_mem y (ys.filter fun z => key z = key y)) with hc | hc
      · rw [hc]
        exact List.mem_cons_self
      · exact List.mem_cons_of_mem y (List.mem_of_mem_filter hc)
    · exact List.mem_cons_of_mem y (List.mem_of_mem_filter (ih h))

/-- The elements kept are the champions of the keys that occur. -/
theorem mem_bestOf_iff {xs : List α} {f : α} : f ∈ bestOf key replaces xs ↔
    ∃ x rest, xs.filter (fun y => key y = key f) = x :: rest ∧ f = champion replaces x rest := by
  induction xs using keys_induction key with
  | nil => simp [bestOf]
  | cons y ys ih =>
    have hchampion : key (champion replaces y (ys.filter fun z => key z = key y)) = key y := by
      rcases List.mem_cons.mp (champion_mem y (ys.filter fun z => key z = key y)) with hc | hc
      · rw [hc]
      · simpa using List.of_mem_filter hc
    rw [bestOf_cons, List.mem_cons, ih]
    by_cases hf : key f = key y
    · have hnone : (ys.filter fun z => key z ≠ key y).filter (fun z => key z = key f) = [] := by
        rw [List.filter_filter, List.filter_eq_nil_iff]
        intro z _
        simp [hf]
      rw [hnone, List.filter_cons_of_pos (by simp [hf]), hf]
      constructor
      · rintro (h | ⟨x, rest, h, -⟩)
        · exact ⟨y, _, rfl, h⟩
        · cases h
      · rintro ⟨x, rest, h, rfl⟩
        obtain ⟨rfl, rfl⟩ := List.cons.inj h
        exact .inl rfl
    · have hsame : (ys.filter fun z => key z ≠ key y).filter (fun z => key z = key f) =
          ys.filter fun z => key z = key f := by
        rw [List.filter_filter]
        apply List.filter_congr
        intro z _
        by_cases hz : key z = key f
        · simp [hz, hf]
        · simp [hz]
      rw [hsame, List.filter_cons_of_neg (by simpa using fun h => hf h.symm)]
      constructor
      · rintro (rfl | h)
        · exact absurd hchampion hf
        · exact h
      · exact .inr

theorem nodup_keys_bestOf (xs : List α) : ((bestOf key replaces xs).map key).Nodup := by
  induction xs using keys_induction key with
  | nil => exact List.nodup_nil
  | cons x xs ih =>
    rw [bestOf_cons, List.map_cons, List.nodup_cons]
    refine ⟨?_, ih⟩
    intro hmem
    obtain ⟨y, hy, hkey⟩ := List.mem_map.mp hmem
    have hne : key y ≠ key x := by simpa using List.of_mem_filter (mem_of_mem_bestOf hy)
    rcases List.mem_cons.mp (champion_mem x (xs.filter fun z => key z = key x)) with hc | hc
    · exact hne (hkey.trans (congrArg key hc))
    · exact hne (hkey.trans (by simpa using List.of_mem_filter hc))

/-- Where nothing replaces what is there, a new key goes to the end and a known one changes
nothing. -/
theorem keepBetter_first (x : α) (seen : List α) :
    keepBetter key (fun _ _ => false) x seen =
      if ∃ y ∈ seen, key y = key x then seen else seen ++ [x] := by
  induction seen with
  | nil => simp [keepBetter]
  | cons y seen ih =>
    rw [keepBetter]
    by_cases hy : key y = key x
    · simp [hy]
    · rw [if_neg hy, ih]
      simp only [List.exists_mem_cons_iff, hy, false_or]
      exact apply_ite (y :: ·) _ _ _

section Rank
variable {ρ : Type w} [LinearOrder ρ] {rank : α → ρ}

/-- Replacing by what ranks strictly higher keeps the earliest of the highest. -/
theorem champion_earliest (h : ∀ x y, replaces x y = true ↔ rank y < rank x) (y : α) (xs : List α) :
    ∃ before after, y :: xs = before ++ champion replaces y xs :: after ∧
      (∀ z ∈ before, rank z < rank (champion replaces y xs)) ∧
        ∀ z ∈ after, rank z ≤ rank (champion replaces y xs) := by
  induction xs generalizing y with
  | nil => exact ⟨[], [], rfl, by simp, by simp⟩
  | cons x xs ih =>
    rw [champion_cons]
    by_cases hx : rank y < rank x
    · rw [if_pos ((h x y).mpr hx)]
      obtain ⟨before, after, hsplit, hbefore, hafter⟩ := ih x
      refine ⟨y :: before, after, congrArg (y :: ·) hsplit, ?_, hafter⟩
      have hle : rank x ≤ rank (champion replaces x xs) := by
        have hmem : x ∈ before ++ champion replaces x xs :: after :=
          hsplit ▸ List.mem_cons_self
        rcases List.mem_append.mp hmem with hx | hx
        · exact (hbefore x hx).le
        · rcases List.mem_cons.mp hx with hx | hx
          · exact (congrArg rank hx).le
          · exact hafter x hx
      exact List.forall_mem_cons.mpr ⟨hx.trans_le hle, hbefore⟩
    · rw [if_neg fun hr => hx ((h x y).mp hr)]
      obtain ⟨before, after, hsplit, hbefore, hafter⟩ := ih y
      cases before with
      | nil =>
        obtain ⟨hy, rfl⟩ := List.cons.inj hsplit
        refine ⟨[], x :: xs, congrArg (· :: x :: xs) hy, by simp, ?_⟩
        rw [← hy] at hafter ⊢
        exact List.forall_mem_cons.mpr ⟨not_lt.mp hx, hafter⟩
      | cons z before =>
        obtain ⟨rfl, hrest⟩ := List.cons.inj hsplit
        refine ⟨y :: x :: before, after, congrArg (fun l => y :: x :: l) hrest, ?_, hafter⟩
        obtain ⟨hy, hbefore⟩ := List.forall_mem_cons.mp hbefore
        exact List.forall_mem_cons.mpr ⟨hy,
          List.forall_mem_cons.mpr ⟨(not_lt.mp hx).trans_lt hy, hbefore⟩⟩

end Rank

end SpineFormal
