import Mathlib.Data.List.Infix
import SpineFormal.Base.TextCodec

/-!
# Replacing a text in another

`replaceText` goes through a text from left to right, an occurrence or a character at a time.
-/

namespace SpineFormal

set_option autoImplicit false

variable {old new s t w : List Char} {c sep : Char}

theorem replaceFrom_length (w t : List Char) :
    replaceFrom old new w.length (w ++ t) = replaceText old new t := by
  induction w with
  | nil => rfl
  | cons c w ih => exact ih

theorem replaceText_front (hold : old ≠ []) (t : List Char) :
    replaceText old new (old ++ t) = new ++ replaceText old new t := by
  cases old with
  | nil => exact absurd rfl hold
  | cons a old =>
    have hpre : (a :: old).isPrefixOf (a :: (old ++ t)) = true :=
      List.isPrefixOf_iff_prefix.mpr (List.prefix_append (a :: old) t)
    rw [List.cons_append, replaceText, replaceFrom, if_pos hpre, List.length_cons,
      Nat.add_sub_cancel, replaceFrom_length]

theorem replaceText_cons (h : ¬ old <+: c :: s) :
    replaceText old new (c :: s) = c :: replaceText old new s := by
  rw [replaceText, replaceFrom, if_neg fun hpre => h (List.isPrefixOf_iff_prefix.mp hpre)]
  rfl

/-- Induction over a text as `replaceText` reads it. -/
theorem replace_induction (hold : old ≠ []) {P : List Char → Prop} (nil : P [])
    (found : ∀ t, P t → P (old ++ t)) (other : ∀ c t, ¬ old <+: c :: t → P t → P (c :: t))
    (s : List Char) : P s := by
  induction h : s.length using Nat.strongRecOn generalizing s with
  | _ n ih =>
    by_cases hpre : old <+: s
    · obtain ⟨t, rfl⟩ := hpre
      refine found t (ih t.length ?_ t rfl)
      have hpos := List.length_pos_iff.mpr hold
      rw [← h, List.length_append]
      omega
    · cases s with
      | nil => exact nil
      | cons c s =>
        refine other c s hpre (ih s.length ?_ s rfl)
        rw [← h, List.length_cons]
        exact Nat.lt_succ_self _

/-- No occurrence begins in the first part. -/
theorem replaceText_pass (h : ∀ u v, w = u ++ v → v ≠ [] → ¬ old <+: v ++ t) :
    replaceText old new (w ++ t) = w ++ replaceText old new t := by
  induction w with
  | nil => rfl
  | cons c w ih =>
    have hno : ¬ old <+: c :: (w ++ t) := h [] (c :: w) rfl (List.cons_ne_nil c w)
    have hrest := ih fun u v hw hv => h (c :: u) v (by rw [hw, List.cons_append]) hv
    rw [List.cons_append, replaceText_cons hno, hrest, List.cons_append]

theorem replaceText_of_not_infix (h : ¬ old <:+: s) : replaceText old new s = s := by
  induction s with
  | nil => rfl
  | cons c s ih =>
    rw [List.infix_cons_iff, not_or] at h
    rw [replaceText_cons h.1, ih h.2]

theorem replaceText_self (hold : old ≠ []) (s : List Char) : replaceText old old s = s := by
  induction s using replace_induction hold with
  | nil => rfl
  | found t ih => rw [replaceText_front hold, ih]
  | other c t hpre ih => rw [replaceText_cons hpre, ih]

/-! ## A character that does not occur in the old text -/

theorem prefix_append_cons (hsep : sep ∉ old) (s t : List Char) :
    old <+: s ++ sep :: t ↔ old <+: s := by
  constructor
  · intro h
    rcases List.prefix_or_prefix_of_prefix h (List.prefix_append s (sep :: t)) with h' | h'
    · exact h'
    · obtain ⟨rest, rfl⟩ := h'
      rw [List.prefix_append_right_inj] at h
      cases rest with
      | nil => rw [List.append_nil]
      | cons d rest =>
        obtain ⟨rfl, -⟩ := List.cons_prefix_cons.mp h
        exact absurd (List.mem_append_right s List.mem_cons_self) hsep
  · exact fun h => h.trans (List.prefix_append s (sep :: t))

theorem replaceText_append_cons (hold : old ≠ []) (hsep : sep ∉ old) (s t : List Char) :
    replaceText old new (s ++ sep :: t) =
      replaceText old new s ++ sep :: replaceText old new t := by
  induction s using replace_induction hold with
  | nil =>
    refine replaceText_cons fun h => ?_
    cases old with
    | nil => exact hold rfl
    | cons d old => exact hsep ((List.cons_prefix_cons.mp h).1 ▸ List.mem_cons_self)
  | found s ih =>
    rw [List.append_assoc, replaceText_front hold, ih, replaceText_front hold, List.append_assoc]
  | other c s hpre ih =>
    have hpre' : ¬ old <+: c :: (s ++ sep :: t) := fun h =>
      hpre ((prefix_append_cons hsep (c :: s) t).mp h)
    rw [List.cons_append, replaceText_cons hpre', ih, replaceText_cons hpre, List.cons_append]

theorem infix_append_cons (hold : old ≠ []) (hsep : sep ∉ old) (s t : List Char) :
    old <:+: s ++ sep :: t ↔ old <:+: s ∨ old <:+: t := by
  induction s with
  | nil =>
    rw [List.nil_append, List.infix_cons_iff, List.infix_nil]
    have hpre : ¬ old <+: sep :: t := fun h => hold (List.prefix_nil.mp
      ((prefix_append_cons hsep [] t).mp h))
    rw [or_iff_right hpre, or_iff_right hold]
  | cons c s ih =>
    rw [List.cons_append, List.infix_cons_iff, ih, List.infix_cons_iff, ← List.cons_append,
      prefix_append_cons hsep, or_assoc]

end SpineFormal
