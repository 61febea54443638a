import Mathlib.Data.List.Basic

/-!
# Blocks between braces

A brace in a string literal opens and closes nothing. A block is what stands between an opening
brace and the closing one that matches it; two texts are twins if they differ only in what their
blocks hold.
-/

namespace SpineFormal.Braces

set_option autoImplicit false

def opening : Char := '\x7b'

def closing : Char := '\x7d'

/-- Whether the next character is in a string literal, or after a backslash in one. -/
inductive Mode where
  | code
  | literal
  | escaped
  deriving DecidableEq

/-- A literal ends with its line if nothing else ends it. -/
def Mode.next : Mode → Char → Mode
  | .code, c => if c = '"' then .literal else .code
  | .literal, c => if c = '"' ∨ c = '\n' then .code else if c = '\\' then .escaped else .literal
  | .escaped, c => if c = '\n' then .code else .literal

def after (m : Mode) (s : List Char) : Mode := s.foldl Mode.next m

/-- How many braces are open after the next character. -/
def depthNext (m : Mode) (d : Nat) (c : Char) : Nat :=
  if m = .code ∧ c = opening then d + 1 else if m = .code ∧ c = closing then d - 1 else d

/-- A text all of whose braces match, outside of a literal at its end. -/
inductive Nested : Mode → List Char → Prop where
  | nil : Nested .code []
  | char {m : Mode} {c : Char} {s : List Char} : ¬ (m = .code ∧ (c = opening ∨ c = closing)) →
      Nested (m.next c) s → Nested m (c :: s)
  | block {s t : List Char} : Nested .code s → Nested .code t →
      Nested .code (opening :: (s ++ closing :: t))

inductive Twin : Mode → List Char → List Char → Prop where
  | nil {m : Mode} : Twin m [] []
  | char {m : Mode} {c : Char} {s t : List Char} : Twin (m.next c) s t → Twin m (c :: s) (c :: t)
  | block {b b' s t : List Char} : Nested .code b → Nested .code b' → Twin .code s t →
      Twin .code (opening :: (b ++ closing :: s)) (opening :: (b' ++ closing :: t))

structure Block (m : Mode) (s pre body post : List Char) : Prop where
  split : s = pre ++ opening :: (body ++ closing :: post)
  outside : after m pre = .code
  nested : Nested .code body

def HasBlock (m : Mode) (s : List Char) : Prop := ∃ pre body post, Block m s pre body post

section
variable {m : Mode} {c : Char} {d : Nat} {s t w body : List Char}

@[simp] theorem next_newline (m : Mode) : m.next '\n' = .code := by
  cases m <;> rfl

theorem depthNext_opening : depthNext .code d opening = d + 1 := by
  rw [depthNext, if_pos ⟨rfl, rfl⟩]

theorem depthNext_closing : depthNext .code d closing = d - 1 := by
  rw [depthNext, if_neg fun h => absurd h.2 (by decide), if_pos ⟨rfl, rfl⟩]

theorem depthNext_other (h : ¬ (m = .code ∧ (c = opening ∨ c = closing))) :
    depthNext m d c = d := by
  rw [depthNext, if_neg fun hc => h ⟨hc.1, .inl hc.2⟩, if_neg fun hc => h ⟨hc.1, .inr hc.2⟩]

theorem Twin.refl (m : Mode) (s : List Char) : Twin m s s := by
  induction s generalizing m with
  | nil => exact .nil
  | cons c s ih => exact .char (ih (m.next c))

theorem Twin.append (w : List Char) (h : Twin (after m w) s t) : Twin m (w ++ s) (w ++ t) := by
  induction w generalizing m with
  | nil => exact h
  | cons c w ih => exact .char (ih h)

/-- In a block anything nested can take the place of what it holds. -/
theorem Block.twin {pre post body' : List Char} (h : Block m s pre body post)
    (hbody : Nested .code body') :
    Twin m s (pre ++ opening :: (body' ++ closing :: post)) := by
  rw [h.split]
  exact .append pre (h.outside ▸ .block h.nested hbody (Twin.refl .code post))

theorem Twin.eq_or_hasBlock (h : Twin m s t) : s = t ∨ HasBlock m s := by
  induction h with
  | nil => exact .inl rfl
  | @char m c s t _ ih =>
    rcases ih with rfl | ⟨pre, body, post, hblock⟩
    · exact .inl rfl
    · exact .inr ⟨c :: pre, body, post, congrArg (c :: ·) hblock.split, hblock.outside,
        hblock.nested⟩
  | block hb _ _ _ => exact .inr ⟨[], _, _, rfl, rfl, hb⟩

theorem Nested.plain (hw : ∀ c ∈ w, c ≠ '"' ∧ c ≠ opening ∧ c ≠ closing) (h : Nested .code s) :
    Nested .code (w ++ s) := by
  induction w with
  | nil => exact h
  | cons c w ih =>
    obtain ⟨⟨hquote, hopen, hclose⟩, hw⟩ := List.forall_mem_cons.mp hw
    refine .char (fun hc => hc.2.elim hopen hclose) ?_
    rw [Mode.next, if_neg hquote]
    exact ih hw

theorem Nested.literal (hw : ∀ c ∈ w, c ≠ '"' ∧ c ≠ '\n' ∧ c ≠ '\\') (h : Nested .code s) :
    Nested .code ('"' :: (w ++ '"' :: s)) := by
  have hinside : Nested .literal (w ++ '"' :: s) := by
    induction w with
    | nil => exact .char (by simp) h
    | cons c w ih =>
      obtain ⟨⟨hquote, hline, hslash⟩, hw⟩ := List.forall_mem_cons.mp hw
      refine .char (by simp) ?_
      rw [Mode.next, if_neg (by simp [hquote, hline]), if_neg hslash]
      exact ih hw
  exact .char (by decide) hinside

end

end SpineFormal.Braces
