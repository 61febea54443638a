import Mathlib.Data.List.Induction

/-!
# Hash chains

Rows that each name their predecessor by a hash. `Linked` walks a chain from its
root; `fits h r` says that `r` may stand after the hash `h`, and `tip r` is the
hash the next row has to name. A chain grows at its end, and where the hash
determines its row, the last tip determines the whole chain.
-/

namespace SpineFormal

set_option autoImplicit false

universe u v
variable {Row : Type u} {Hash : Type v}

/-- Every row fits after its predecessor's tip, the first one after `root`. -/
def Linked (fits : Hash → Row → Prop) (tip : Row → Hash) : Hash → List Row → Prop
  | _, [] => True
  | root, r :: rs => fits root r ∧ Linked fits tip (tip r) rs

/-- The hash the next row has to name. -/
def tipAfter (tip : Row → Hash) (root : Hash) : List Row → Hash
  | [] => root
  | r :: rs => tipAfter tip (tip r) rs

section
variable {fits : Hash → Row → Prop} {tip : Row → Hash} {root : Hash}

theorem Linked.imp {fits' : Hash → Row → Prop} (hfits : ∀ p r, fits p r → fits' p r)
    {rs : List Row} (h : Linked fits tip root rs) : Linked fits' tip root rs := by
  induction rs generalizing root with
  | nil => trivial
  | cons r rs ih => exact ⟨hfits root r h.1, ih h.2⟩

theorem Linked.exists_fits {rs : List Row} (h : Linked fits tip root rs) :
    ∀ r ∈ rs, ∃ p, fits p r := by
  induction rs generalizing root with
  | nil => simp
  | cons a rs ih =>
    intro r hr
    rcases List.mem_cons.mp hr with rfl | hr
    · exact ⟨root, h.1⟩
    · exact ih h.2 r hr

theorem linked_append (rs rs' : List Row) :
    Linked fits tip root (rs ++ rs') ↔
      Linked fits tip root rs ∧ Linked fits tip (tipAfter tip root rs) rs' := by
  induction rs generalizing root with
  | nil => simp [Linked, tipAfter]
  | cons r rs ih => simp only [List.cons_append, Linked, tipAfter, ih, and_assoc]

theorem linked_concat {rs : List Row} {r : Row} :
    Linked fits tip root (rs ++ [r]) ↔
      Linked fits tip root rs ∧ fits (tipAfter tip root rs) r := by
  simp [linked_append, Linked]

@[simp] theorem tipAfter_concat (rs : List Row) (r : Row) :
    tipAfter tip root (rs ++ [r]) = tip r := by
  induction rs generalizing root with
  | nil => rfl
  | cons a rs ih => exact ih

theorem tipAfter_eq_getLast (rs : List Row) :
    tipAfter tip root rs = (rs.getLast?.map tip).getD root := by
  induction rs using List.reverseRecOn with
  | nil => rfl
  | append_singleton rs r _ => simp

/-- Two chains from one root with the same last tip are equal, row by row, when
a row's tip determines the row and its predecessor's hash, and no row's tip is
the root: neither chain can be a cut-off piece of the other. -/
theorem Linked.eq_of_tipAfter_eq {rs rs' : List Row} (h : Linked fits tip root rs)
    (h' : Linked fits tip root rs')
    (det : ∀ r ∈ rs, ∀ r' ∈ rs', ∀ p p', fits p r → fits p' r' → tip r = tip r' → r = r' ∧ p = p')
    (hroot : ∀ r ∈ rs, tip r ≠ root) (hroot' : ∀ r ∈ rs', tip r ≠ root)
    (htip : tipAfter tip root rs = tipAfter tip root rs') : rs = rs' := by
  induction rs using List.reverseRecOn generalizing rs' with
  | nil =>
    cases rs' using List.reverseRecOn with
    | nil => rfl
    | append_singleton rs' r' =>
      rw [tipAfter_concat] at htip
      exact absurd htip.symm (hroot' r' (by simp))
  | append_singleton rs r ih =>
    cases rs' using List.reverseRecOn with
    | nil =>
      rw [tipAfter_concat] at htip
      exact absurd htip (hroot r (by simp))
    | append_singleton rs' r' =>
      rw [tipAfter_concat, tipAfter_concat] at htip
      rw [linked_concat] at h h'
      obtain ⟨hr, hp⟩ := det r (by simp) r' (by simp) _ _ h.2 h'.2 htip
      have heq := ih h.1 h'.1
        (fun a ha a' ha' => det a (List.mem_append_left _ ha) a' (List.mem_append_left _ ha'))
        (fun a ha => hroot a (List.mem_append_left _ ha))
        (fun a ha => hroot' a (List.mem_append_left _ ha)) hp
      rw [heq, hr]

end
end SpineFormal
