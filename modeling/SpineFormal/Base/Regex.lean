import Mathlib.Data.List.Basic

/-!
# Backtracking patterns

A pattern without assertions gives its matches at a place in the order in which a
backtracking matcher tries them. Which texts it can match does not depend on the order,
and is described by the words it spells.
-/

namespace SpineFormal.Re

set_option autoImplicit false

/-- A pattern without assertions; a repetition has a least and, where it is bounded, a
greatest number of turns, and a reluctant one tries fewer turns first. -/
inductive Regex where
  | eps
  | cls (p : Char → Bool)
  | seq (a b : Regex)
  | rep (reluctant : Bool) (least : Nat) (most : Option Nat) (a : Regex)

/-- A turn that takes nothing ends no repetition. -/
def turns (split : List Char → List (List Char × List Char)) (reluctant : Bool) :
    Nat → Nat → Option Nat → List Char → List (List Char × List Char)
  | 0, least, _, s => if least = 0 then [([], s)] else []
  | fuel + 1, least, most, s =>
    let more :=
      if most = some 0 then []
      else ((split s).filter fun p => p.1 ≠ []).flatMap fun p =>
        (turns split reluctant fuel (least - 1) (most.map (· - 1)) p.2).map fun q =>
          (p.1 ++ q.1, q.2)
    if least ≠ 0 then more
    else if reluctant then ([], s) :: more
    else more ++ [([], s)]

/-- What a pattern can take from the front of a text, and what it leaves. -/
def Regex.splits : Regex → List Char → List (List Char × List Char)
  | eps, s => [([], s)]
  | cls _, [] => []
  | cls p, c :: s => if p c then [([c], s)] else []
  | seq a b, s => (a.splits s).flatMap fun p => (b.splits p.2).map fun q => (p.1 ++ q.1, q.2)
  | rep reluctant least most a, s => turns a.splits reluctant s.length least most s

def lit : List Char → Regex
  | [] => .eps
  | c :: s => .seq (.cls (· == c)) (lit s)

def seqs : List Regex → Regex
  | [] => .eps
  | r :: rs => .seq r (seqs rs)

/-- `[p]{n}`. -/
def times (n : Nat) (p : Char → Bool) : Regex := .rep false n (some n) (.cls p)

/-- `[p]{n,}`. -/
def atLeast (n : Nat) (p : Char → Bool) : Regex := .rep false n none (.cls p)

/-- `[p]?`. -/
def maybe (p : Char → Bool) : Regex := .rep false 0 (some 1) (.cls p)

/-- `.*?`, where the dot stands for any character. -/
def anyText : Regex := .rep true 0 none (.cls fun _ => true)

/-! ## Words -/

inductive Spells : Regex → List Char → Prop where
  | eps : Spells .eps []
  | cls {p : Char → Bool} {c : Char} : p c = true → Spells (.cls p) [c]
  | seq {a b : Regex} {v w : List Char} : Spells a v → Spells b w → Spells (.seq a b) (v ++ w)
  | stop {reluctant : Bool} {most : Option Nat} {a : Regex} : Spells (.rep reluctant 0 most a) []
  | turn {reluctant : Bool} {least : Nat} {most : Option Nat} {a : Regex} {v w : List Char} :
      most ≠ some 0 → Spells a v → v ≠ [] →
      Spells (.rep reluctant (least - 1) (most.map (· - 1)) a) w →
      Spells (.rep reluctant least most a) (v ++ w)

section Turns

variable {a : Regex} {split : List Char → List (List Char × List Char)}

/-- The words of a repetition, told by whether it stops or takes another turn. -/
theorem spells_rep {reluctant : Bool} {least : Nat} {most : Option Nat} {x : List Char} :
    Spells (.rep reluctant least most a) x ↔ least = 0 ∧ x = [] ∨ most ≠ some 0 ∧ ∃ v w,
      x = v ++ w ∧ Spells a v ∧ v ≠ [] ∧
        Spells (.rep reluctant (least - 1) (most.map (· - 1)) a) w := by
  constructor
  · intro h
    cases h with
    | stop => exact .inl ⟨rfl, rfl⟩
    | turn hmost hv hne hw => exact .inr ⟨hmost, _, _, rfl, hv, hne, hw⟩
  · intro h
    obtain ⟨rfl, rfl⟩ | ⟨hmost, v, w, rfl, hv, hne, hw⟩ := h
    · exact .stop
    · exact .turn hmost hv hne hw

variable (hsplit : ∀ s w t, (w, t) ∈ split s ↔ s = w ++ t ∧ Spells a w)
include hsplit

/-- Enough fuel is one turn for each character. -/
theorem mem_turns {reluctant : Bool} {fuel least : Nat} {most : Option Nat} {s w t : List Char}
    (hfuel : s.length ≤ fuel) : (w, t) ∈ turns split reluctant fuel least most s ↔
      s = w ++ t ∧ Spells (.rep reluctant least most a) w := by
  induction fuel generalizing least most s w t with
  | zero =>
    obtain rfl := List.length_eq_zero_iff.mp (by omega : s.length = 0)
    rw [turns, spells_rep]
    constructor
    · intro h
      split at h
      · rename_i hleast
        obtain ⟨rfl, rfl⟩ := Prod.mk.inj (List.mem_singleton.mp h)
        exact ⟨rfl, .inl ⟨hleast, rfl⟩⟩
      · cases h
    · intro h
      obtain ⟨hs, ⟨hleast, rfl⟩ | ⟨-, v, w, rfl, -, hne, -⟩⟩ := h
      · obtain rfl : t = [] := hs.symm
        rw [if_pos hleast]
        exact List.mem_singleton.mpr rfl
      · rw [List.append_assoc] at hs
        exact absurd (List.append_eq_nil_iff.mp hs.symm).1 hne
  | succ fuel ih =>
    have hmore : (w, t) ∈ (if most = some 0 then [] else
        ((split s).filter fun p => p.1 ≠ []).flatMap fun p =>
          (turns split reluctant fuel (least - 1) (most.map (· - 1)) p.2).map fun q =>
            (p.1 ++ q.1, q.2)) ↔ s = w ++ t ∧ most ≠ some 0 ∧ ∃ v v', w = v ++ v' ∧ Spells a v ∧
        v ≠ [] ∧ Spells (.rep reluctant (least - 1) (most.map (· - 1)) a) v' := by
      split
      · rename_i hmost
        constructor
        · exact fun h => absurd h List.not_mem_nil
        · exact fun h => absurd hmost h.2.1
      · rename_i hmost
        rw [List.mem_flatMap]
        constructor
        · intro h
          obtain ⟨⟨v, r⟩, hmem, hrest⟩ := h
          obtain ⟨hmem, htakes⟩ := List.mem_filter.mp hmem
          obtain ⟨⟨v', t'⟩, hturns, heq⟩ := List.mem_map.mp hrest
          obtain ⟨rfl, rfl⟩ := Prod.mk.inj heq
          obtain ⟨rfl, hv⟩ := (hsplit _ _ _).mp hmem
          have hne : v ≠ [] := of_decide_eq_true htakes
          have hpos := List.length_pos_iff.mpr hne
          rw [List.length_append] at hfuel
          have hr : r.length ≤ fuel := by omega
          obtain ⟨rfl, hv'⟩ := (ih hr).mp hturns
          exact ⟨(List.append_assoc _ _ _).symm, hmost, v, v', rfl, hv, hne, hv'⟩
        · intro h
          obtain ⟨rfl, -, v, v', rfl, hv, hne, hv'⟩ := h
          have hpos := List.length_pos_iff.mpr hne
          rw [List.append_assoc, List.length_append] at hfuel
          have hr : (v' ++ t).length ≤ fuel := by omega
          refine ⟨(v, v' ++ t), ?_, ?_⟩
          · apply List.mem_filter.mpr
            exact ⟨(hsplit _ _ _).mpr ⟨List.append_assoc _ _ _, hv⟩, decide_eq_true hne⟩
          · exact List.mem_map.mpr ⟨(v', t), (ih hr).mpr ⟨rfl, hv'⟩, rfl⟩
    have hstop : (w, t) = ([], s) ↔ s = w ++ t ∧ w = [] := by
      constructor
      · intro h
        obtain ⟨rfl, rfl⟩ := Prod.mk.inj h
        exact ⟨rfl, rfl⟩
      · intro h
        obtain ⟨rfl, rfl⟩ := h
        rfl
    rw [turns, spells_rep]
    split
    · rename_i hleast
      rw [hmore, or_iff_right (fun h => hleast h.1)]
    · rename_i hleast
      have hleast : least = 0 := not_not.mp hleast
      split
      · rw [List.mem_cons, hmore, hstop, and_iff_right hleast]
        exact and_or_left.symm
      · rw [List.mem_append, hmore, List.mem_singleton, hstop, and_iff_right hleast, or_comm]
        exact and_or_left.symm

end Turns

/-- The order aside, a pattern takes the words it spells. -/
theorem mem_splits {r : Regex} {s w t : List Char} :
    (w, t) ∈ r.splits s ↔ s = w ++ t ∧ Spells r w := by
  induction r generalizing s w t with
  | eps =>
    rw [Regex.splits, List.mem_singleton]
    constructor
    · intro h
      obtain ⟨rfl, rfl⟩ := Prod.mk.inj h
      exact ⟨rfl, .eps⟩
    · intro h
      obtain ⟨rfl, hw⟩ := h
      cases hw
      rfl
  | cls p =>
    constructor
    · intro h
      cases s with
      | nil => cases h
      | cons c s =>
        rw [Regex.splits] at h
        split at h
        · rename_i hc
          obtain ⟨rfl, rfl⟩ := Prod.mk.inj (List.mem_singleton.mp h)
          exact ⟨rfl, .cls hc⟩
        · cases h
    · intro h
      obtain ⟨rfl, hw⟩ := h
      cases hw with
      | cls hc =>
        rw [List.singleton_append, Regex.splits, if_pos hc]
        exact List.mem_singleton.mpr rfl
  | seq a b iha ihb =>
    rw [Regex.splits, List.mem_flatMap]
    constructor
    · intro h
      obtain ⟨⟨v, r⟩, ha, hb⟩ := h
      obtain ⟨⟨v', t'⟩, hrest, heq⟩ := List.mem_map.mp hb
      obtain ⟨rfl, rfl⟩ := Prod.mk.inj heq
      obtain ⟨rfl, hv⟩ := iha.mp ha
      obtain ⟨rfl, hv'⟩ := ihb.mp hrest
      exact ⟨(List.append_assoc _ _ _).symm, .seq hv hv'⟩
    · intro h
      obtain ⟨rfl, hw⟩ := h
      cases hw with
      | seq hv hw =>
        rename_i v w
        refine ⟨(v, w ++ t), iha.mpr ⟨List.append_assoc _ _ _, hv⟩, ?_⟩
        exact List.mem_map.mpr ⟨(w, t), ihb.mpr ⟨rfl, hw⟩, rfl⟩
  | rep reluctant least most a ih =>
    exact mem_turns (fun _ _ _ => ih) (Nat.le_refl _)

/-! ## What can be read off a pattern -/

/-- A lower bound for the length of the words. -/
def Regex.width : Regex → Nat
  | eps => 0
  | cls _ => 1
  | seq a b => a.width + b.width
  | rep _ least _ a => least * a.width

theorem width_le {r : Regex} {w : List Char} (h : Spells r w) : r.width ≤ w.length := by
  induction h with
  | eps => exact Nat.le_refl 0
  | cls _ => exact Nat.le_refl 1
  | seq _ _ ihv ihw =>
    rw [Regex.width, List.length_append]
    omega
  | stop =>
    rw [Regex.width]
    omega
  | @turn _ least _ a v w _ _ _ _ ihv ihw =>
    rw [Regex.width] at ihw
    rw [Regex.width, List.length_append]
    cases least with
    | zero => omega
    | succ n =>
      rw [Nat.add_sub_cancel] at ihw
      rw [Nat.succ_mul]
      omega

/-- No class of the pattern has the character. -/
def Regex.avoids (x : Char) : Regex → Bool
  | eps => true
  | cls p => !p x
  | seq a b => a.avoids x && b.avoids x
  | rep _ _ _ a => a.avoids x

theorem notMem_of_avoids {r : Regex} {w : List Char} {x : Char} (h : Spells r w)
    (hr : r.avoids x = true) : x ∉ w := by
  induction h with
  | eps | stop => exact List.not_mem_nil
  | cls hc =>
    intro hx
    obtain rfl := List.mem_singleton.mp hx
    rw [Regex.avoids, hc] at hr
    cases hr
  | seq _ _ ihv ihw =>
    rw [Regex.avoids, Bool.and_eq_true] at hr
    intro hx
    exact (List.mem_append.mp hx).elim (ihv hr.1) (ihw hr.2)
  | turn _ _ _ _ ihv ihw =>
    intro hx
    exact (List.mem_append.mp hx).elim (ihv hr) (ihw hr)

theorem forall_of_times {n : Nat} {p : Char → Bool} {w : List Char} (h : Spells (times n p) w) :
    ∀ c ∈ w, p c = true := by
  intro c hc
  by_contra hp
  have hav : (times n p).avoids c = true := by simpa [times, Regex.avoids] using hp
  exact notMem_of_avoids h hav hc

theorem spells_anyText (m : List Char) : Spells anyText m := by
  induction m with
  | nil => exact .stop
  | cons c m ih => exact .turn (v := [c]) (by simp) (.cls rfl) (by simp) ih

end SpineFormal.Re
