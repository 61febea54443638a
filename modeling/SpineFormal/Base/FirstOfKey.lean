import Mathlib.Data.List.Basic

/-!
# The first element of each key

A pass over a list that makes something of the first element of each key and passes over the
others. Making can fail, and then the pass does.
-/

namespace SpineFormal

set_option autoImplicit false

variable {α β ε κ : Type}

/-- `seen` are the keys so far. -/
def makeFirst [BEq κ] (key : α → κ) (make : α → Except ε β) : List κ → List α → Except ε (List β)
  | _, [] => .ok []
  | seen, a :: as =>
    if seen.contains (key a) then makeFirst key make seen as
    else
      match make a with
      | .error e => .error e
      | .ok b =>
        match makeFirst key make (key a :: seen) as with
        | .error e => .error e
        | .ok bs => .ok (b :: bs)

/-- No element before it has its key. -/
def FirstOfKey (key : α → κ) (l : List α) (a : α) : Prop :=
  ∃ before after, l = before ++ a :: after ∧ ∀ b ∈ before, key b ≠ key a

theorem firstOfKey_cons {key : α → κ} {x a : α} {l : List α} :
    FirstOfKey key (x :: l) a ↔ a = x ∨ key x ≠ key a ∧ FirstOfKey key l a := by
  constructor
  · rintro ⟨before, after, heq, hbefore⟩
    cases before with
    | nil => exact .inl (List.cons.inj heq).1.symm
    | cons y before =>
      obtain ⟨rfl, hl⟩ := List.cons.inj heq
      obtain ⟨hy, hrest⟩ := List.forall_mem_cons.mp hbefore
      exact .inr ⟨hy, before, after, hl, hrest⟩
  · rintro (rfl | ⟨hx, before, after, rfl, hbefore⟩)
    · exact ⟨[], l, rfl, fun _ h => nomatch h⟩
    · exact ⟨x :: before, after, rfl, List.forall_mem_cons.mpr ⟨hx, hbefore⟩⟩

theorem FirstOfKey.mem {key : α → κ} {l : List α} {a : α} (h : FirstOfKey key l a) : a ∈ l := by
  obtain ⟨before, after, rfl, -⟩ := h
  exact List.mem_append_right before List.mem_cons_self

variable [BEq κ] [LawfulBEq κ] {key : α → κ} {make : α → Except ε β}

/-- The pass fails exactly when making one of the first elements does. -/
theorem makeFirst_ok_iff (seen : List κ) (l : List α) :
    (∃ bs, makeFirst key make seen l = .ok bs) ↔
      ∀ a, FirstOfKey key l a → key a ∉ seen → ∃ b, make a = .ok b := by
  induction l generalizing seen with
  | nil =>
    refine iff_of_true ⟨[], rfl⟩ ?_
    rintro a ⟨before, after, heq, -⟩
    cases before <;> cases heq
  | cons x l ih =>
    rw [makeFirst]
    by_cases hseen : key x ∈ seen
    · rw [if_pos (List.contains_iff_mem.mpr hseen), ih]
      refine forall_congr' fun a => ?_
      rw [firstOfKey_cons]
      constructor
      · rintro h (rfl | ⟨-, ha⟩) hnew
        · exact absurd hseen hnew
        · exact h ha hnew
      · intro h ha hnew
        refine h (.inr ⟨fun heq => hnew (heq ▸ hseen), ha⟩) hnew
    · rw [if_neg (by simpa using hseen)]
      cases hx : make x with
      | error e =>
        refine iff_of_false (fun ⟨_, h⟩ => nomatch h) fun h => ?_
        obtain ⟨b, hb⟩ := h x (firstOfKey_cons.mpr (.inl rfl)) hseen
        rw [hx] at hb
        cases hb
      | ok b =>
        have hrest : (∃ bs, (match makeFirst key make (key x :: seen) l with
            | .error e => .error e
            | .ok bs => .ok (b :: bs)) = Except.ok (ε := ε) bs) ↔
              ∃ bs, makeFirst key make (key x :: seen) l = .ok bs := by
          cases makeFirst key make (key x :: seen) l with
          | error e => exact iff_of_false (fun ⟨_, h⟩ => nomatch h) fun ⟨_, h⟩ => nomatch h
          | ok bs => exact iff_of_true ⟨_, rfl⟩ ⟨_, rfl⟩
        refine hrest.trans ((ih _).trans (forall_congr' fun a => ?_))
        rw [firstOfKey_cons, List.mem_cons, not_or]
        constructor
        · rintro h (rfl | ⟨hne, ha⟩) hnew
          · exact ⟨b, hx⟩
          · exact h ha ⟨hne.symm, hnew⟩
        · intro h ha hnew
          exact h (.inr ⟨Ne.symm hnew.1, ha⟩) hnew.2

omit [LawfulBEq κ] in
theorem makeFirst_made {seen : List κ} {l : List α} {bs : List β}
    (h : makeFirst key make seen l = .ok bs) : ∀ b ∈ bs, ∃ a ∈ l, make a = .ok b := by
  induction l generalizing seen bs with
  | nil =>
    obtain rfl := Except.ok.inj h
    exact fun _ hb => nomatch hb
  | cons x l ih =>
    rw [makeFirst] at h
    split at h
    · intro b hb
      obtain ⟨a, ha, hmake⟩ := ih h b hb
      exact ⟨a, List.mem_cons_of_mem x ha, hmake⟩
    · split at h
      · cases h
      · rename_i y hy
        split at h
        · cases h
        · rename_i ys hys
          obtain rfl := Except.ok.inj h
          intro b hb
          rcases List.mem_cons.mp hb with rfl | hb
          · exact ⟨x, List.mem_cons_self, hy⟩
          · obtain ⟨a, ha, hmake⟩ := ih hys b hb
            exact ⟨a, List.mem_cons_of_mem x ha, hmake⟩

end SpineFormal
