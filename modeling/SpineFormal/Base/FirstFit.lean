import Mathlib.Algebra.BigOperators.Group.List.Basic
import Mathlib.Algebra.Ring.Nat
import Mathlib.Data.List.Basic

/-!
# Taking what still fits

A pass over a list that takes an element when its cost fits into what is left of a limit,
and goes on behind one that does not fit.
-/

namespace SpineFormal

set_option autoImplicit false

variable {α β : Type}

/-- The elements taken once `used` of the limit is spent. -/
def firstFit (cost : α → Nat) (limit : Nat) : Nat → List α → List α
  | _, [] => []
  | used, x :: xs =>
    if used + cost x ≤ limit then x :: firstFit cost limit (used + cost x) xs
    else firstFit cost limit used xs

theorem firstFit_map (cost : β → Nat) (f : α → β) (limit used : Nat) (xs : List α) :
    firstFit cost limit used (xs.map f) =
      (firstFit (fun a => cost (f a)) limit used xs).map f := by
  induction xs generalizing used with
  | nil => rfl
  | cons x xs ih =>
    rw [List.map_cons, firstFit, firstFit]
    split
    · rw [ih, List.map_cons]
    · exact ih used

variable {cost : α → Nat} {limit : Nat}

theorem firstFit_sublist (used : Nat) (xs : List α) : (firstFit cost limit used xs).Sublist xs := by
  induction xs generalizing used with
  | nil => exact .slnil
  | cons x xs ih =>
    rw [firstFit]
    split
    · exact (ih _).cons_cons x
    · exact (ih _).cons x

/-- Nothing is passed over exactly when everything fits together. -/
theorem firstFit_eq_self_iff {used : Nat} (hused : used ≤ limit) (xs : List α) :
    firstFit cost limit used xs = xs ↔ used + (xs.map cost).sum ≤ limit := by
  induction xs generalizing used with
  | nil => simpa [firstFit] using hused
  | cons x xs ih =>
    rw [firstFit, List.map_cons, List.sum_cons]
    by_cases hx : used + cost x ≤ limit
    · rw [if_pos hx, List.cons_inj_right, ih hx, Nat.add_assoc]
    · rw [if_neg hx]
      constructor
      · intro h
        have hlen : (firstFit cost limit used xs).length ≤ xs.length :=
          (firstFit_sublist used xs).length_le
        rw [h, List.length_cons] at hlen
        omega
      · omega

theorem length_firstFit_lt_iff {used : Nat} (hused : used ≤ limit) (xs : List α) :
    (firstFit cost limit used xs).length < xs.length ↔ limit < used + (xs.map cost).sum := by
  rw [← Nat.not_le, ← Nat.not_le, not_iff_not, ← firstFit_eq_self_iff hused]
  have hsub : (firstFit cost limit used xs).Sublist xs := firstFit_sublist used xs
  constructor
  · exact fun h => hsub.eq_of_length_le h
  · intro h
    exact h.symm ▸ Nat.le_refl _

end SpineFormal
