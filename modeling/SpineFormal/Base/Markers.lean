import Mathlib.Data.List.Infix
import SpineFormal.Base.TextReplace

/-!
# Cutting a text at a marker

`text.partition(marker)` and `text.index(marker)` find the first place where the marker
stands. What is before that place does not change the place when what follows the marker
is written anew.
-/

namespace SpineFormal

set_option autoImplicit false

/-- What is before the first marker, and what is behind it. -/
def cutAt (marker : List Char) : List Char → Option (List Char × List Char)
  | [] => if marker = [] then some ([], []) else none
  | c :: s =>
    if marker <+: c :: s then some ([], (c :: s).drop marker.length)
    else (cutAt marker s).map fun p => (c :: p.1, p.2)

/-- No marker starts in the text, even when one stands behind it. -/
def Clear (marker text : List Char) : Prop :=
  ∀ v, v ≠ [] → v <:+ text → ¬ marker <+: v ++ marker

variable {marker : List Char}

theorem clear_nil (marker : List Char) : Clear marker [] :=
  fun _ hne hv => absurd (List.suffix_nil.mp hv) hne

/-- A marker longer than what is left cannot reach behind the marker that follows. -/
theorem prefix_append_marker (v rest : List Char) :
    marker <+: v ++ marker ++ rest ↔ marker <+: v ++ marker := by
  constructor
  · intro h
    apply List.prefix_of_prefix_length_le h (List.prefix_append _ rest)
    rw [List.length_append]
    exact Nat.le_add_left _ _
  · exact fun h => h.trans (List.prefix_append _ rest)

theorem clear_cons_iff (c : Char) (text : List Char) :
    Clear marker (c :: text) ↔ ¬ marker <+: c :: text ++ marker ∧ Clear marker text := by
  constructor
  · intro h
    refine ⟨h _ (List.cons_ne_nil c text) List.suffix_rfl, fun v hne hv => ?_⟩
    exact h v hne (hv.trans (List.suffix_cons c text))
  · rintro ⟨hhead, htail⟩ v hne hv
    rcases List.suffix_cons_iff.mp hv with rfl | hv
    · exact hhead
    · exact htail v hne hv

theorem cutAt_append {before : List Char} (hm : marker ≠ []) (h : Clear marker before)
    (behind : List Char) : cutAt marker (before ++ marker ++ behind) = some (before, behind) := by
  induction before with
  | nil =>
    obtain ⟨c, m, rfl⟩ := List.exists_cons_of_ne_nil hm
    rw [List.nil_append, List.cons_append, cutAt, if_pos]
    · rw [← List.cons_append, List.drop_left]
    · exact List.prefix_append (c :: m) behind
  | cons c before ih =>
    obtain ⟨hhead, htail⟩ := (clear_cons_iff c before).mp h
    have hno : ¬ marker <+: c :: (before ++ marker ++ behind) := fun hp =>
      hhead ((prefix_append_marker (c :: before) behind).mp hp)
    rw [List.cons_append, List.cons_append, cutAt, if_neg hno, ih htail]
    rfl

theorem cutAt_eq_some_iff (hm : marker ≠ []) {s before behind : List Char} :
    cutAt marker s = some (before, behind) ↔
      s = before ++ marker ++ behind ∧ Clear marker before := by
  constructor
  · induction s generalizing before with
    | nil =>
      rw [cutAt, if_neg hm]
      exact fun h => nomatch h
    | cons c s ih =>
      rw [cutAt]
      split
      · rename_i hp
        intro h
        obtain ⟨rfl, rfl⟩ := Prod.mk.inj (Option.some.inj h)
        exact ⟨(List.prefix_iff_eq_append.mp hp).symm, clear_nil marker⟩
      · rename_i hp
        intro h
        obtain ⟨⟨before', behind'⟩, hcut, heq⟩ := Option.map_eq_some_iff.mp h
        obtain ⟨rfl, rfl⟩ := Prod.mk.inj heq
        obtain ⟨rfl, hclear⟩ := ih hcut
        refine ⟨rfl, (clear_cons_iff c before').mpr ⟨fun hno => hp ?_, hclear⟩⟩
        exact (prefix_append_marker (c :: before') behind').mpr hno
  · rintro ⟨rfl, h⟩
    exact cutAt_append hm h behind

theorem cutAt_eq_none_iff (hm : marker ≠ []) {s : List Char} :
    cutAt marker s = none ↔ ¬ marker <:+: s := by
  induction s with
  | nil =>
    rw [cutAt, if_neg hm, List.infix_nil]
    exact iff_of_true rfl hm
  | cons c s ih =>
    rw [cutAt, List.infix_cons_iff]
    split
    · rename_i hp
      exact iff_of_false (fun h => nomatch h) fun h => h (.inl hp)
    · rename_i hp
      rw [Option.map_eq_none_iff, ih, or_iff_right hp]

/-- A marker without newlines does not start in a text that ends with a newline, unless the
text contains it. -/
theorem clear_append_newline {text : List Char} {sep : Char} (hsep : sep ∉ marker)
    (h : ¬ marker <:+: text) : Clear marker (text ++ [sep]) := by
  intro v hne hv hp
  rcases List.eq_nil_or_concat v with rfl | ⟨w, c, rfl⟩
  · exact hne rfl
  · rw [List.concat_eq_append] at hv hp
    obtain ⟨u, hu⟩ := hv
    rw [← List.append_assoc] at hu
    obtain ⟨huw, hc⟩ := List.append_inj' hu rfl
    obtain rfl := List.head_eq_of_cons_eq hc
    rw [List.append_assoc, List.singleton_append, prefix_append_cons hsep] at hp
    exact h (huw ▸ hp.isInfix.trans (List.suffix_append u w).isInfix)

end SpineFormal
