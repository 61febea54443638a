import SpineFormal.Base.Regex

/-!
# The first way through a pattern

A matcher hands each split of a pattern to what comes after it and keeps the first one that
goes through. Where what comes after can only begin at one place, the order of the splits
does not matter; a greedy run otherwise ends at the last place where the rest goes through.
-/

namespace SpineFormal.Re

set_option autoImplicit false

variable {α : Type} {p : Char → Bool}

/-- The answer of the first split from which `k` gets one; `k` sees the word and the rest. -/
def Regex.first (r : Regex) (s : List Char) (k : List Char → List Char → Option α) : Option α :=
  (r.splits s).findSome? fun q => k q.1 q.2

theorem first_eps (s : List Char) (k : List Char → List Char → Option α) :
    Regex.first .eps s k = k [] s := by
  rw [Regex.first, Regex.splits, List.findSome?_singleton]

theorem first_cls_cons (c : Char) (s : List Char) (k : List Char → List Char → Option α) :
    Regex.first (.cls p) (c :: s) k = if p c then k [c] s else none := by
  rw [Regex.first, Regex.splits]
  split_ifs <;> simp

theorem findSome?_flatMap {β γ : Type} (f : β → List γ) (g : γ → Option α) (xs : List β) :
    (xs.flatMap f).findSome? g = xs.findSome? fun x => (f x).findSome? g := by
  induction xs with
  | nil => rfl
  | cons x xs ih =>
    rw [List.flatMap_cons, List.findSome?_append, ih, List.findSome?_cons]
    cases (f x).findSome? g <;> rfl

theorem first_seq (a b : Regex) (s : List Char) (k : List Char → List Char → Option α) :
    Regex.first (.seq a b) s k = a.first s fun v t => b.first t fun w u => k (v ++ w) u := by
  simp only [Regex.first, Regex.splits, findSome?_flatMap, List.findSome?_map]
  rfl

/-- No split goes through when `k` refuses every word. -/
theorem first_eq_none {r : Regex} {s : List Char} {k : List Char → List Char → Option α}
    (h : ∀ w t, s = w ++ t → Spells r w → k w t = none) : r.first s k = none := by
  apply List.findSome?_eq_none_iff.mpr
  intro q hq
  obtain ⟨hs, hw⟩ := mem_splits.mp hq
  exact h q.1 q.2 hs hw

theorem first_eq_some {r : Regex} {s : List Char} {k : List Char → List Char → Option α} {x : α}
    (h : r.first s k = some x) : ∃ w t, s = w ++ t ∧ Spells r w ∧ k w t = some x := by
  obtain ⟨q, hq, hx⟩ := List.exists_of_findSome?_eq_some h
  obtain ⟨hs, hw⟩ := mem_splits.mp hq
  exact ⟨q.1, q.2, hs, hw, hx⟩

theorem isSome_first {r : Regex} {s : List Char} {k : List Char → List Char → Option α}
    {w t : List Char} (hs : s = w ++ t) (hw : Spells r w) (hk : (k w t).isSome = true) :
    (r.first s k).isSome = true := by
  rw [Regex.first, List.findSome?_isSome_iff]
  exact ⟨(w, t), mem_splits.mpr ⟨hs, hw⟩, hk⟩

/-! ## Sequences -/

theorem spells_seqs_cons {r : Regex} {rs : List Regex} {w : List Char} :
    Spells (seqs (r :: rs)) w ↔ ∃ u v, w = u ++ v ∧ Spells r u ∧ Spells (seqs rs) v := by
  constructor
  · intro h
    cases h with
    | seq hu hv => exact ⟨_, _, rfl, hu, hv⟩
  · rintro ⟨u, v, rfl, hu, hv⟩
    exact .seq hu hv

theorem spells_seqs_append {rs rs' : List Regex} {w : List Char} :
    Spells (seqs (rs ++ rs')) w ↔ ∃ u v, w = u ++ v ∧ Spells (seqs rs) u ∧ Spells (seqs rs') v := by
  induction rs generalizing w with
  | nil =>
    constructor
    · exact fun h => ⟨[], w, rfl, .eps, h⟩
    · rintro ⟨u, v, rfl, hu, hv⟩
      cases hu
      exact hv
  | cons r rs ih =>
    rw [List.cons_append, spells_seqs_cons]
    constructor
    · rintro ⟨u, v, rfl, hu, hv⟩
      obtain ⟨v, v', rfl, hv, hv'⟩ := ih.mp hv
      exact ⟨u ++ v, v', (List.append_assoc ..).symm, .seq hu hv, hv'⟩
    · rintro ⟨u, v, rfl, hu, hv⟩
      obtain ⟨u, u', rfl, hu, hu'⟩ := spells_seqs_cons.mp hu
      exact ⟨u, u' ++ v, List.append_assoc .., hu, ih.mpr ⟨u', v, rfl, hu', hv⟩⟩

/-! ## Literals -/

theorem first_lit (l t : List Char) (k : List Char → List Char → Option α) :
    (lit l).first (l ++ t) k = k l t := by
  induction l generalizing k with
  | nil => exact first_eps t k
  | cons c l ih =>
    rw [lit, first_seq, List.cons_append, first_cls_cons, if_pos (beq_self_eq_true c), ih]
    rfl

theorem spells_lit {l w : List Char} : Spells (lit l) w ↔ w = l := by
  induction l generalizing w with
  | nil =>
    constructor
    · intro h
      cases h
      rfl
    · rintro rfl
      exact .eps
  | cons c l ih =>
    constructor
    · intro h
      cases h with
      | seq hv hw =>
        cases hv with
        | cls hc =>
          obtain rfl := ih.mp hw
          obtain rfl := beq_iff_eq.mp hc
          rfl
    · rintro rfl
      exact .seq (v := [c]) (.cls (beq_self_eq_true c)) (ih.mpr rfl)

theorem first_lit_none {l s : List Char} (h : ¬ l <+: s)
    (k : List Char → List Char → Option α) : (lit l).first s k = none := by
  apply first_eq_none
  intro w t hs hw
  obtain rfl := spells_lit.mp hw
  exact absurd ⟨t, hs.symm⟩ h

/-! ## Greedy runs of a class -/

theorem first_many_nil (k : List Char → List Char → Option α) :
    (atLeast 0 p).first [] k = k [] [] := by
  rw [Regex.first, atLeast, Regex.splits, List.length_nil, turns, if_pos rfl,
    List.findSome?_singleton]

theorem first_many_stop {c : Char} (h : p c = false) (s : List Char)
    (k : List Char → List Char → Option α) :
    (atLeast 0 p).first (c :: s) k = k [] (c :: s) := by
  have hsplits : (atLeast 0 p).splits (c :: s) = [([], c :: s)] := by
    simp [atLeast, Regex.splits, turns, h]
  rw [Regex.first, hsplits, List.findSome?_singleton]

theorem splits_many_cons {c : Char} (h : p c = true) (s : List Char) :
    (atLeast 0 p).splits (c :: s) =
      (((atLeast 0 p).splits s).map fun q => (c :: q.1, q.2)) ++ [([], c :: s)] := by
  simp [atLeast, Regex.splits, turns, h]

theorem first_many_cons {c : Char} (h : p c = true) (s : List Char)
    (k : List Char → List Char → Option α) :
    (atLeast 0 p).first (c :: s) k =
      ((atLeast 0 p).first s fun w t => k (c :: w) t).or (k [] (c :: s)) := by
  rw [Regex.first, splits_many_cons h, List.findSome?_append, List.findSome?_map,
    List.findSome?_singleton]
  rfl

theorem first_some_cons {c : Char} (h : p c = true) (s : List Char)
    (k : List Char → List Char → Option α) :
    (atLeast 1 p).first (c :: s) k = (atLeast 0 p).first s fun w t => k (c :: w) t := by
  have hsplits : (atLeast 1 p).splits (c :: s) =
      ((atLeast 0 p).splits s).map fun q => (c :: q.1, q.2) := by
    simp [atLeast, Regex.splits, turns, h]
  rw [Regex.first, hsplits, List.findSome?_map]
  rfl

theorem first_some_stop {c : Char} (h : p c = false) (s : List Char)
    (k : List Char → List Char → Option α) : (atLeast 1 p).first (c :: s) k = none := by
  have hsplits : (atLeast 1 p).splits (c :: s) = [] := by
    simp [atLeast, Regex.splits, turns, h]
  rw [Regex.first, hsplits, List.findSome?_nil]

theorem forall_of_atLeast {n : Nat} {w : List Char} (h : Spells (atLeast n p) w) :
    ∀ c ∈ w, p c = true := by
  intro c hc
  by_contra hp
  have hav : (atLeast n p).avoids c = true := by simpa [atLeast, Regex.avoids] using hp
  exact notMem_of_avoids h hav hc

theorem spells_many {w : List Char} (h : ∀ c ∈ w, p c = true) : Spells (atLeast 0 p) w := by
  induction w with
  | nil => exact .stop
  | cons c w ih =>
    obtain ⟨hc, hw⟩ := List.forall_mem_cons.mp h
    exact .turn (v := [c]) (by simp) (.cls hc) (by simp) (ih hw)

theorem spells_many_iff {w : List Char} : Spells (atLeast 0 p) w ↔ ∀ c ∈ w, p c = true :=
  ⟨forall_of_atLeast, spells_many⟩

theorem spells_some_iff {w : List Char} :
    Spells (atLeast 1 p) w ↔ w ≠ [] ∧ ∀ c ∈ w, p c = true := by
  constructor
  · intro h
    refine ⟨?_, forall_of_atLeast h⟩
    rintro rfl
    exact absurd (width_le h) (by simp [atLeast, Regex.width])
  · rintro ⟨hne, hw⟩
    cases w with
    | nil => exact absurd rfl hne
    | cons c w =>
      obtain ⟨hc, hw⟩ := List.forall_mem_cons.mp hw
      exact .turn (v := [c]) (by simp) (.cls hc) (by simp) (spells_many hw)

/-- A run of a class does not reach into a text that begins outside it. -/
theorem run_within {b t w u : List Char} (h : b ++ t = w ++ u) (hw : ∀ c ∈ w, p c = true)
    (ht : ∀ c ∈ t.head?, p c = false) : ∃ v, b = w ++ v ∧ u = v ++ t := by
  rcases List.append_eq_append_iff.mp h with ⟨v, rfl, rfl⟩ | ⟨v, rfl, rfl⟩
  · cases v with
    | nil => exact ⟨[], by simp, by simp⟩
    | cons c v =>
      have hin : p c = true := hw c (by simp)
      rw [ht c rfl] at hin
      cases hin
  · exact ⟨v, rfl, rfl⟩

/-- A run ends at the last place from which `k` gets an answer. -/
theorem first_many_last {a b t : List Char} {k : List Char → List Char → Option α} {x : α}
    (ha : ∀ c ∈ a, p c = true) (hb : ∀ c ∈ b, p c = true) (ht : ∀ c ∈ t.head?, p c = false)
    (hlater : ∀ u v, b = u ++ v → u ≠ [] → k (a ++ u) (v ++ t) = none)
    (hk : k a (b ++ t) = some x) : (atLeast 0 p).first (a ++ (b ++ t)) k = some x := by
  induction a generalizing k with
  | cons c a ih =>
    obtain ⟨hc, ha⟩ := List.forall_mem_cons.mp ha
    rw [List.cons_append, first_many_cons hc, ih ha hlater hk, Option.some_or]
  | nil =>
    cases b with
    | nil =>
      cases t with
      | nil => exact (first_many_nil k).trans hk
      | cons d t => exact (first_many_stop (ht d rfl) t k).trans hk
    | cons c b =>
      obtain ⟨hc, hb⟩ := List.forall_mem_cons.mp hb
      have hnone : (atLeast 0 p).first (b ++ t) (fun w u => k (c :: w) u) = none := by
        apply first_eq_none
        intro w u hs hw
        obtain ⟨v, rfl, rfl⟩ := run_within hs (forall_of_atLeast hw) ht
        exact hlater (c :: w) v rfl (by simp)
      exact (first_many_cons hc (b ++ t) k).trans (by rw [hnone, Option.none_or]; exact hk)

/-- Where what comes after a run can only begin outside it, the run takes all it can. -/
theorem first_many_all {w t : List Char} {k : List Char → List Char → Option α}
    (hw : ∀ c ∈ w, p c = true) (ht : ∀ c ∈ t.head?, p c = false)
    (hk : ∀ u c v, p c = true → k u (c :: v) = none) :
    (atLeast 0 p).first (w ++ t) k = k w t := by
  induction w generalizing k with
  | nil =>
    cases t with
    | nil => exact first_many_nil k
    | cons d t => exact first_many_stop (ht d rfl) t k
  | cons c w ih =>
    obtain ⟨hc, hw⟩ := List.forall_mem_cons.mp hw
    rw [List.cons_append, first_many_cons hc, ih hw fun u d v hd => hk (c :: u) d v hd,
      hk [] c _ hc, Option.or_none]

theorem first_some_all {w t : List Char} {k : List Char → List Char → Option α} (hne : w ≠ [])
    (hw : ∀ c ∈ w, p c = true) (ht : ∀ c ∈ t.head?, p c = false)
    (hk : ∀ u c v, p c = true → k u (c :: v) = none) :
    (atLeast 1 p).first (w ++ t) k = k w t := by
  cases w with
  | nil => exact absurd rfl hne
  | cons c w =>
    obtain ⟨hc, hw⟩ := List.forall_mem_cons.mp hw
    rw [List.cons_append, first_some_cons hc,
      first_many_all hw ht fun u d v hd => hk (c :: u) d v hd]

/-- A run that the rest of the pattern lets be takes all it can. -/
theorem first_many_greedy {w t : List Char} {k : List Char → List Char → Option α} {x : α}
    (hw : ∀ c ∈ w, p c = true) (ht : ∀ c ∈ t.head?, p c = false) (hk : k w t = some x) :
    (atLeast 0 p).first (w ++ t) k = some x := by
  refine first_many_last (b := []) hw (fun c hc => absurd hc List.not_mem_nil) ht ?_ hk
  intro u v hnil hu
  exact absurd (List.append_eq_nil_iff.mp hnil.symm).1 hu

theorem first_some_greedy {w t : List Char} {k : List Char → List Char → Option α} {x : α}
    (hne : w ≠ []) (hw : ∀ c ∈ w, p c = true) (ht : ∀ c ∈ t.head?, p c = false)
    (hk : k w t = some x) : (atLeast 1 p).first (w ++ t) k = some x := by
  cases w with
  | nil => exact absurd rfl hne
  | cons c w =>
    obtain ⟨hc, hw⟩ := List.forall_mem_cons.mp hw
    rw [List.cons_append, first_some_cons hc]
    exact first_many_greedy hw ht hk

/-! ## One character or none -/

theorem first_maybe_stop {c : Char} (h : p c = false) (s : List Char)
    (k : List Char → List Char → Option α) : (maybe p).first (c :: s) k = k [] (c :: s) := by
  have hsplits : (maybe p).splits (c :: s) = [([], c :: s)] := by
    simp [maybe, Regex.splits, turns, h]
  rw [Regex.first, hsplits, List.findSome?_singleton]

theorem first_maybe_cons {c : Char} (h : p c = true) (s : List Char)
    (k : List Char → List Char → Option α) :
    (maybe p).first (c :: s) k = (k [c] s).or (k [] (c :: s)) := by
  have hsplits : (maybe p).splits (c :: s) = [([c], s), ([], c :: s)] := by
    cases s <;> simp [maybe, Regex.splits, turns, h]
  rw [Regex.first, hsplits, List.findSome?_cons, List.findSome?_singleton]
  cases k [c] s <;> rfl

end SpineFormal.Re
