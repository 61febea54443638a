import SpineFormal.Base.BraceBlocks
import SpineFormal.Base.Numerals
import SpineFormal.Base.TextRecords

/-!
# Signatures without bodies

`PrivacyGuard.apply_signature_only` for languages other than Python: a line at a time, with the
number of open braces from line to line. Every brace counts there, also one in a string literal.
-/

namespace SpineFormal.Verify

open Braces
set_option autoImplicit false

/-! ## The function -/

def redactedBlock : List Char := "\x7b /* TRON REDACTED IP */ \x7d".toList

/-- One turn of the loop of `strip_bodies`: the result so far, and the stack. -/
def stripLine (st : List (List Char) × Nat) (line : List Char) : List (List Char) × Nat :=
  let result := if opening ∈ line ∧ st.2 = 0 then st.1 ++ [upTo opening line ++ redactedBlock]
    else st.1
  let stack := if opening ∈ line then st.2 + line.count opening else st.2
  if closing ∈ line then (result, stack - line.count closing)
  else if stack = 0 then (result ++ [line], stack) else (result, stack)

def stripBodies (text : List Char) : List Char :=
  ['\n'].intercalate ((text.splitOn '\n').foldl stripLine ([], 0)).1

/-- What `ast` makes of a Python text, and `str.lower`, are not part of the model. -/
def applySignatureOnly (lower signatures : List Char → List Char) (code language : List Char) :
    List Char :=
  if lower language = "python".toList then signatures code else stripBodies code

/-! ## Line by line -/

/-- What a line adds to the result. -/
def emission (stack : Nat) (line : List Char) : List (List Char) :=
  if stack ≠ 0 then []
  else if opening ∈ line then [upTo opening line ++ redactedBlock]
  else if closing ∈ line then [] else [line]

def stackAfter (stack : Nat) (line : List Char) : Nat :=
  stack + line.count opening - line.count closing

/-- The lines that are sent out, after a part of a line. -/
def sent : Nat → List Char → List Char → List (List Char)
  | stack, pre, [] => emission stack pre
  | stack, pre, c :: s =>
    if c = '\n' then emission stack pre ++ sent (stackAfter stack pre) [] s
    else sent stack (pre ++ [c]) s

/-- The lines that are sent out after the line that has begun. -/
def sentLater : Nat → List Char → List Char → List (List Char)
  | _, _, [] => []
  | stack, pre, c :: s =>
    if c = '\n' then sent (stackAfter stack pre) [] s else sentLater stack (pre ++ [c]) s

/-- At every line start the stack is empty just where no brace is open. -/
def TracksFrom : Nat → List Char → Mode → Nat → List Char → Prop
  | _, _, _, _, [] => True
  | stack, pre, m, d, c :: s =>
    if c = '\n' then
      (stackAfter stack pre = 0 ↔ d = 0) ∧ TracksFrom (stackAfter stack pre) [] (m.next c) d s
    else TracksFrom stack (pre ++ [c]) (m.next c) (depthNext m d c) s

def Tracks (text : List Char) : Prop := TracksFrom 0 [] .code 0 text

/-- No brace is in a literal, and none closes what was not open. -/
def CleanFrom : Mode → Nat → List Char → Prop
  | _, _, [] => True
  | m, d, c :: s => (c = opening → m = .code) ∧ (c = closing → m = .code ∧ 0 < d) ∧
    CleanFrom (m.next c) (depthNext m d c) s

instance decidableCleanFrom : ∀ m d s, Decidable (CleanFrom m d s)
  | _, _, [] => .isTrue trivial
  | m, d, c :: s =>
    have := decidableCleanFrom (m.next c) (depthNext m d c) s
    inferInstanceAs (Decidable (_ ∧ _ ∧ _))

section
variable {m : Mode} {c : Char} {stack stack' d : Nat} {pre pre' s t w line body : List Char}

theorem stripLine_eq (result : List (List Char)) (stack : Nat) (line : List Char) :
    stripLine (result, stack) line = (result ++ emission stack line, stackAfter stack line) := by
  have hcount : (if opening ∈ line then stack + line.count opening else stack) =
      stack + line.count opening := by
    split
    · rfl
    · rename_i hno
      rw [List.count_eq_zero_of_not_mem hno, Nat.add_zero]
  rw [stripLine, hcount, emission, stackAfter]
  by_cases hclose : closing ∈ line
  · rw [if_pos hclose]
    by_cases hopen : opening ∈ line <;> by_cases hstack : stack = 0 <;>
      simp [hopen, hclose, hstack]
  · have hzero : line.count closing = 0 := List.count_eq_zero_of_not_mem hclose
    rw [if_neg hclose, hzero, Nat.sub_zero]
    by_cases hopen : opening ∈ line
    · have hpos := List.count_pos_iff.mpr hopen
      rw [if_neg (by omega : stack + line.count opening ≠ 0)]
      by_cases hstack : stack = 0 <;> simp [hopen, hstack]
    · rw [List.count_eq_zero_of_not_mem hopen, Nat.add_zero]
      by_cases hstack : stack = 0 <;> simp [hopen, hclose, hstack]

theorem foldl_stripLine (hpre : '\n' ∉ pre) (result : List (List Char)) :
    (((pre ++ s).splitOn '\n').foldl stripLine (result, stack)).1 =
      result ++ sent stack pre s := by
  induction s generalizing pre result stack with
  | nil =>
    rw [List.append_nil, List.splitOn_eq_singleton hpre, List.foldl_cons, stripLine_eq]
    rfl
  | cons c s ih =>
    rw [sent]
    split
    · rename_i hc
      rw [hc, List.splitOn_append_cons_self_of_not_mem hpre, List.foldl_cons, stripLine_eq]
      have hrest : ((s.splitOn '\n').foldl stripLine
          (result ++ emission stack pre, stackAfter stack pre)).1 =
          result ++ emission stack pre ++ sent (stackAfter stack pre) [] s :=
        ih List.not_mem_nil (result ++ emission stack pre)
      rw [hrest, List.append_assoc]
    · rename_i hc
      have hpre' : '\n' ∉ pre ++ [c] := by
        rw [List.mem_append, List.mem_singleton, not_or]
        exact ⟨hpre, Ne.symm hc⟩
      rw [← ih hpre', List.append_assoc]
      rfl

theorem stripBodies_eq (text : List Char) :
    stripBodies text = ['\n'].intercalate (sent 0 [] text) := by
  have hlines : ((text.splitOn '\n').foldl stripLine ([], 0)).1 = sent 0 [] text :=
    foldl_stripLine List.not_mem_nil []
  rw [stripBodies, hlines]

/-! ## A line whose part in the result is settled -/

def LineSettled (stack : Nat) (pre : List Char) : Prop := stack ≠ 0 ∨ opening ∈ pre

theorem LineSettled.append (h : LineSettled stack pre) (w : List Char) :
    LineSettled stack (pre ++ w) :=
  h.imp_right (List.mem_append_left w)

theorem emission_append (h : LineSettled stack pre) (w : List Char) :
    emission stack (pre ++ w) = emission stack pre := by
  rw [emission, emission]
  by_cases hstack : stack ≠ 0
  · rw [if_pos hstack, if_pos hstack]
  · have hmem := h.resolve_left hstack
    rw [if_neg hstack, if_neg hstack, if_pos hmem, if_pos (List.mem_append_left w hmem),
      upTo_append hmem]

theorem settled_opening (stack : Nat) (pre : List Char) : LineSettled stack (pre ++ [opening]) :=
  .inr (List.mem_append_right pre (List.mem_singleton_self opening))

theorem sent_of_settled (h : LineSettled stack pre) :
    sent stack pre s = emission stack pre ++ sentLater stack pre s := by
  induction s generalizing pre with
  | nil => exact (List.append_nil _).symm
  | cons c s ih =>
    rw [sent, sentLater]
    split
    · rfl
    · rw [ih (h.append [c]), emission_append h]

theorem sent_of_pos (h : stack ≠ 0) : sent stack [] s = sentLater stack [] s := by
  rw [sent_of_settled (.inl h), emission, if_pos h]
  rfl

/-! ## Inside a block -/

theorem TracksFrom.newline (h : TracksFrom stack pre m d ('\n' :: s)) :
    (stackAfter stack pre = 0 ↔ d = 0) ∧ TracksFrom (stackAfter stack pre) [] .code d s := by
  rw [TracksFrom, if_pos rfl, next_newline] at h
  exact h

theorem TracksFrom.char (hc : c ≠ '\n') (h : TracksFrom stack pre m d (c :: s)) :
    TracksFrom stack (pre ++ [c]) (m.next c) (depthNext m d c) s := by
  rwa [TracksFrom, if_neg hc] at h

theorem sent_newline : sent stack pre ('\n' :: s) =
    emission stack pre ++ sent (stackAfter stack pre) [] s := if_pos rfl

theorem sent_char (hc : c ≠ '\n') : sent stack pre (c :: s) = sent stack (pre ++ [c]) s :=
  if_neg hc

theorem sentLater_newline : sentLater stack pre ('\n' :: s) = sent (stackAfter stack pre) [] s :=
  if_pos rfl

theorem sentLater_char (hc : c ≠ '\n') :
    sentLater stack pre (c :: s) = sentLater stack (pre ++ [c]) s := if_neg hc

/-- Nothing nested is sent out where the stack is not empty at its line starts. -/
theorem sentLater_nested (hbody : Nested m body) (hset : LineSettled stack pre) (hd : d ≠ 0)
    (h : TracksFrom stack pre m d (body ++ s)) : ∃ stack' pre', LineSettled stack' pre' ∧
      TracksFrom stack' pre' .code d s ∧
      sentLater stack pre (body ++ s) = sentLater stack' pre' s := by
  induction hbody generalizing stack pre d s with
  | nil => exact ⟨stack, pre, hset, h, rfl⟩
  | @char m c body hno _ ih =>
    rw [List.cons_append] at h ⊢
    by_cases hc : c = '\n'
    · subst hc
      obtain ⟨hzero, hrest⟩ := h.newline
      rw [next_newline] at ih
      have hpos : stackAfter stack pre ≠ 0 := fun heq => hd (hzero.mp heq)
      rw [sentLater_newline, sent_of_pos hpos]
      exact ih (.inl hpos) hd hrest
    · have hrest := h.char hc
      rw [depthNext_other hno] at hrest
      rw [sentLater_char hc]
      exact ih (hset.append [c]) hd hrest
  | @block b t _ _ ihb iht =>
    rw [List.cons_append, List.append_assoc, List.cons_append] at h ⊢
    have hopen := h.char (by decide)
    rw [depthNext_opening] at hopen
    rw [sentLater_char (by decide)]
    obtain ⟨stack₁, pre₁, hset₁, htracks₁, hsent₁⟩ :=
      ihb (settled_opening stack pre) (Nat.add_one_ne_zero d) hopen
    have hclose := TracksFrom.char (c := closing) (by decide) htracks₁
    rw [depthNext_closing, Nat.add_sub_cancel] at hclose
    rw [hsent₁, sentLater_char (by decide)]
    exact iht (hset₁.append [closing]) hd hclose

/-- A block is passed over to what comes after it. -/
theorem sentLater_block (hbody : Nested .code body)
    (h : TracksFrom stack pre .code d (opening :: (body ++ closing :: s))) :
    ∃ stack' pre', LineSettled stack' pre' ∧ TracksFrom stack' pre' .code d s ∧
      sentLater stack (pre ++ [opening]) (body ++ closing :: s) = sentLater stack' pre' s := by
  have hopen := h.char (by decide)
  rw [depthNext_opening] at hopen
  obtain ⟨stack₁, pre₁, hset₁, htracks₁, hsent₁⟩ :=
    sentLater_nested hbody (settled_opening stack pre) (Nat.add_one_ne_zero d) hopen
  have hclose := TracksFrom.char (c := closing) (by decide) htracks₁
  rw [depthNext_closing, Nat.add_sub_cancel] at hclose
  rw [sentLater_char (by decide)] at hsent₁
  exact ⟨stack₁, pre₁ ++ [closing], hset₁.append [closing], hclose, hsent₁⟩

/-! ## Two texts -/

/-- Twins go through the same lines: as long as nothing was opened the lines are the same, and
from then on nothing of them is sent out. -/
theorem sent_twin (h : Twin m s t) :
    (∀ pre d, TracksFrom 0 pre m d s → TracksFrom 0 pre m d t → sent 0 pre s = sent 0 pre t) ∧
    ∀ stack pre stack' pre' d, LineSettled stack pre → LineSettled stack' pre' →
      TracksFrom stack pre m d s → TracksFrom stack' pre' m d t →
      sentLater stack pre s = sentLater stack' pre' t := by
  induction h with
  | nil => exact ⟨fun _ _ _ _ => rfl, fun _ _ _ _ _ _ _ _ _ => rfl⟩
  | @char m c s t _ ih =>
    obtain ⟨ihsame, ihlater⟩ := ih
    by_cases hc : c = '\n'
    · subst hc
      rw [next_newline] at ihsame ihlater
      have hnext : ∀ stack stack' d, (stack = 0 ↔ d = 0) → (stack' = 0 ↔ d = 0) →
          TracksFrom stack [] .code d s → TracksFrom stack' [] .code d t →
          sent stack [] s = sent stack' [] t := by
        intro stack stack' d hzero hzero' hs ht
        by_cases hd : d = 0
        · obtain rfl := hzero.mpr hd
          obtain rfl := hzero'.mpr hd
          exact ihsame [] d hs ht
        · have hpos : stack ≠ 0 := fun heq => hd (hzero.mp heq)
          have hpos' : stack' ≠ 0 := fun heq => hd (hzero'.mp heq)
          rw [sent_of_pos hpos, sent_of_pos hpos']
          exact ihlater stack [] stack' [] d (.inl hpos) (.inl hpos') hs ht
      constructor
      · intro pre d hs ht
        obtain ⟨hzero, hs⟩ := hs.newline
        obtain ⟨-, ht⟩ := ht.newline
        rw [sent_newline, sent_newline, hnext _ _ d hzero hzero hs ht]
      · intro stack pre stack' pre' d _ _ hs ht
        obtain ⟨hzero, hs⟩ := hs.newline
        obtain ⟨hzero', ht⟩ := ht.newline
        rw [sentLater_newline, sentLater_newline]
        exact hnext _ _ d hzero hzero' hs ht
    · constructor
      · intro pre d hs ht
        rw [sent_char hc, sent_char hc]
        exact ihsame (pre ++ [c]) _ (hs.char hc) (ht.char hc)
      · intro stack pre stack' pre' d hset hset' hs ht
        rw [sentLater_char hc, sentLater_char hc]
        exact ihlater stack (pre ++ [c]) stack' (pre' ++ [c]) _ (hset.append [c])
          (hset'.append [c]) (hs.char hc) (ht.char hc)
  | @block b b' s t hb hb' _ ih =>
    have hlater : ∀ stack pre stack' pre' d,
        TracksFrom stack pre .code d (opening :: (b ++ closing :: s)) →
        TracksFrom stack' pre' .code d (opening :: (b' ++ closing :: t)) →
        sentLater stack (pre ++ [opening]) (b ++ closing :: s) =
          sentLater stack' (pre' ++ [opening]) (b' ++ closing :: t) := by
      intro stack pre stack' pre' d hs ht
      obtain ⟨stack₁, pre₁, hset₁, hs₁, hsent₁⟩ := sentLater_block hb hs
      obtain ⟨stack₂, pre₂, hset₂, ht₂, hsent₂⟩ := sentLater_block hb' ht
      rw [hsent₁, hsent₂]
      exact ih.2 stack₁ pre₁ stack₂ pre₂ d hset₁ hset₂ hs₁ ht₂
    constructor
    · intro pre d hs ht
      rw [sent_char (by decide), sent_char (by decide), sent_of_settled (settled_opening 0 pre),
        sent_of_settled (settled_opening 0 pre), hlater 0 pre 0 pre d hs ht]
    · intro stack pre stack' pre' d _ _ hs ht
      rw [sentLater_char (by decide), sentLater_char (by decide)]
      exact hlater stack pre stack' pre' d hs ht

theorem stripBodies_twin (h : Twin .code s t) (hs : Tracks s) (ht : Tracks t) :
    stripBodies s = stripBodies t := by
  rw [stripBodies_eq, stripBodies_eq, (sent_twin h).1 [] 0 hs ht]

theorem tracksFrom_of_clean (h : CleanFrom m d s)
    (hopen : stack + pre.count opening = pre.count closing + d) :
    TracksFrom stack pre m d s := by
  induction s generalizing stack pre m d with
  | nil => trivial
  | cons c s ih =>
    obtain ⟨hopening, hclosing, hrest⟩ := h
    rw [TracksFrom]
    split
    · rename_i hc
      have hafter : stackAfter stack pre = d := by
        rw [stackAfter, hopen, Nat.add_sub_cancel_left]
      have hdepth : depthNext m d '\n' = d := depthNext_other fun h => absurd h.2 (by decide)
      rw [hc, hdepth] at hrest
      rw [hafter, hc]
      exact ⟨Iff.rfl, ih hrest (by simp)⟩
    · refine ih hrest ?_
      rw [List.count_append, List.count_append]
      by_cases ho : c = opening
      · obtain rfl := hopening ho
        subst ho
        have hother : List.count closing [opening] = 0 := by decide
        rw [depthNext_opening, List.count_singleton_self, hother]
        omega
      · by_cases hcl : c = closing
        · obtain ⟨rfl, hpos⟩ := hclosing hcl
          subst hcl
          have hother : List.count opening [closing] = 0 := by decide
          rw [depthNext_closing, List.count_singleton_self, hother]
          omega
        · rw [depthNext_other (by simp [ho, hcl]), List.count_singleton, List.count_singleton]
          simp [ho, hcl, hopen]

theorem tracks_of_clean (h : CleanFrom .code 0 s) : Tracks s := tracksFrom_of_clean h rfl

/-! ## What a block can hold to be seen -/

theorem sent_line (hw : '\n' ∉ w) : sent stack pre (w ++ '\n' :: s) =
    emission stack (pre ++ w) ++ sent (stackAfter stack (pre ++ w)) [] s := by
  induction w generalizing pre with
  | nil => rw [List.append_nil, List.nil_append, sent_newline]
  | cons c w ih =>
    obtain ⟨hc, hw⟩ := List.ne_and_not_mem_of_not_mem_cons hw
    rw [List.cons_append, sent_char (Ne.symm hc), ih hw, List.append_assoc]
    rfl

/-- Up to a line end the lines do not depend on what comes after it. -/
theorem sent_before (w : List Char) (stack : Nat) (pre : List Char) : ∃ lines stack', ∀ s,
    sent stack pre (w ++ '\n' :: s) = lines ++ sent stack' [] s := by
  induction w generalizing stack pre with
  | nil => exact ⟨emission stack pre, stackAfter stack pre, fun _ => sent_newline⟩
  | cons c w ih =>
    by_cases hc : c = '\n'
    · obtain ⟨lines, stack', h⟩ := ih (stackAfter stack pre) []
      refine ⟨emission stack pre ++ lines, stack', fun s => ?_⟩
      rw [hc, List.cons_append, sent_newline, h, List.append_assoc]
    · obtain ⟨lines, stack', h⟩ := ih stack (pre ++ [c])
      refine ⟨lines, stack', fun s => ?_⟩
      rw [List.cons_append, sent_char hc, h]

/-- The closing braces in a literal, with quotes around them. -/
def closings (k : Nat) : List Char := '"' :: (List.replicate k closing ++ ['"'])

/-- A line of closing braces, and a line with one character. -/
def leak (k : Nat) (x : Char) : List Char := '\n' :: (closings k ++ ['\n', x, '\n'])

theorem nested_leak (k : Nat) {x : Char} (hx : x ≠ '"' ∧ x ≠ opening ∧ x ≠ closing) :
    Nested .code (leak k x) := by
  have hline : Nested .code (['\n', x, '\n'] ++ []) := by
    refine Nested.plain ?_ .nil
    simp only [List.forall_mem_cons]
    exact ⟨by decide, hx, by decide, by simp⟩
  have hliteral : Nested .code ('"' :: (List.replicate k closing ++ '"' :: ['\n', x, '\n'])) := by
    refine Nested.literal (fun c hc => ?_) hline
    rw [(List.mem_replicate.mp hc).2]
    decide
  have hleak : leak k x =
      ['\n'] ++ '"' :: (List.replicate k closing ++ '"' :: ['\n', x, '\n']) := by
    simp [leak, closings]
  rw [hleak]
  exact Nested.plain (Numerals.forall_mem_of_all (by decide)) hliteral

theorem sent_leak (stack : Nat) {x : Char} (hx : x ≠ '\n' ∧ x ≠ opening ∧ x ≠ closing)
    (s : List Char) : sent stack [] (closings (stack + 1) ++ '\n' :: x :: '\n' :: s) =
      [x] :: sent 0 [] s := by
  have hopen : opening ∉ closings (stack + 1) := by
    simp [closings, opening, closing]
  have hclose : closing ∈ closings (stack + 1) := by
    simp [closings]
  have hline : '\n' ∉ closings (stack + 1) := by
    simp [closings, closing]
  have hcount : (closings (stack + 1)).count closing = stack + 1 := by
    simp [closings, closing]
  have hafter : stackAfter stack (closings (stack + 1)) = 0 := by
    rw [stackAfter, List.count_eq_zero_of_not_mem hopen, hcount]
    omega
  have hnone : emission stack (closings (stack + 1)) = [] := by
    rw [emission, if_neg hopen, if_pos hclose, ite_self]
  rw [sent_line hline, List.nil_append, hnone, hafter]
  have hone : emission 0 [x] = [[x]] := by
    rw [emission, if_neg (not_not_intro rfl), if_neg (by simpa using hx.2.1.symm),
      if_neg (by simpa using hx.2.2.symm)]
  have hafter' : stackAfter 0 [x] = 0 := by
    rw [stackAfter, List.count_eq_zero_of_not_mem (by simpa using hx.2.1.symm), Nat.zero_add,
      Nat.zero_sub]
  have hsecond : sent 0 [] ([x] ++ '\n' :: s) =
      emission 0 ([] ++ [x]) ++ sent (stackAfter 0 ([] ++ [x])) [] s :=
    sent_line (by simpa using hx.1.symm)
  rw [List.nil_append, hone, hafter'] at hsecond
  exact hsecond

theorem intercalate_around (sep : List Char) (before later : List (List Char)) :
    ∃ u v, ∀ l, sep.intercalate (before ++ l :: later) = u ++ (l ++ v) := by
  induction before with
  | nil =>
    cases later with
    | nil => exact ⟨[], [], fun l => by simp⟩
    | cons l' later =>
      refine ⟨[], sep ++ sep.intercalate (l' :: later), fun l => ?_⟩
      rw [List.nil_append, List.intercalate_cons_of_ne_nil (List.cons_ne_nil _ _),
        List.append_assoc]
      rfl
  | cons l' before ih =>
    obtain ⟨u, v, h⟩ := ih
    refine ⟨l' ++ sep ++ u, v, fun l => ?_⟩
    rw [List.cons_append, List.intercalate_cons_of_ne_nil (by simp), h, List.append_assoc,
      List.append_assoc, List.append_assoc]

/-- Whatever a text is, what stands in its blocks can be seen. -/
theorem exists_twin_ne (h : HasBlock .code s) :
    ∃ t, Twin .code s t ∧ stripBodies s ≠ stripBodies t := by
  obtain ⟨pre, body, post, hblock⟩ := h
  obtain ⟨before, stack, hbefore⟩ := sent_before (pre ++ [opening]) 0 []
  obtain ⟨u, v, hjoin⟩ := intercalate_around ['\n'] before (sent 0 [] (closing :: post))
  have hout : ∀ x, x ≠ '\n' ∧ x ≠ opening ∧ x ≠ closing →
      stripBodies (pre ++ opening :: (leak (stack + 1) x ++ closing :: post)) =
        u ++ ([x] ++ v) := by
    intro x hx
    have hsplit : pre ++ opening :: (leak (stack + 1) x ++ closing :: post) =
        (pre ++ [opening]) ++ '\n' ::
          (closings (stack + 1) ++ '\n' :: x :: '\n' :: closing :: post) := by
      simp [leak]
    rw [stripBodies_eq, hsplit, hbefore, sent_leak stack hx, hjoin]
  have htwin : ∀ x, x ≠ '"' ∧ x ≠ opening ∧ x ≠ closing →
      Twin .code s (pre ++ opening :: (leak (stack + 1) x ++ closing :: post)) :=
    fun x hx => hblock.twin (nested_leak (stack + 1) hx)
  by_cases hs : stripBodies s = u ++ (['x'] ++ v)
  · refine ⟨_, htwin 'y' (by decide), fun heq => ?_⟩
    rw [hout 'y' (by decide), hs, List.append_cancel_left_eq] at heq
    exact absurd (List.cons.inj heq).1 (by decide)
  · refine ⟨_, htwin 'x' (by decide), fun heq => hs ?_⟩
    rw [heq, hout 'x' (by decide)]

end

theorem applySignatureOnly_twins (lower signatures : List Char → List Char)
    (language : List Char) (hlanguage : lower language ≠ "python".toList) (code : List Char) :
    ((∀ other, Twin .code code other →
      applySignatureOnly lower signatures code language =
        applySignatureOnly lower signatures other language) ↔ ¬ HasBlock .code code) ∧
    ∀ other, Twin .code code other → Tracks code → Tracks other →
      applySignatureOnly lower signatures code language =
        applySignatureOnly lower signatures other language := by
  have hstrip : ∀ text, applySignatureOnly lower signatures text language = stripBodies text :=
    fun _ => if_neg hlanguage
  simp only [hstrip]
  refine ⟨⟨fun h hblock => ?_, fun h other htwin => ?_⟩, fun other => stripBodies_twin⟩
  · obtain ⟨t, htwin, hne⟩ := exists_twin_ne hblock
    exact hne (h t htwin)
  · rw [htwin.eq_or_hasBlock.resolve_right h]

def lowerAscii (s : List Char) : List Char := s.map Char.toLower

theorem applySignatureOnly_clean :
    applySignatureOnly lowerAscii id "f() \x7b\n  a();\n\x7d\n".toList "Java".toList =
      applySignatureOnly lowerAscii id "f() \x7b g \x7b \x7d \x7d\n".toList "Java".toList := by
  have hbody : Nested .code ("\n  a();\n".toList ++ []) :=
    Nested.plain (Numerals.forall_mem_of_all (by decide)) .nil
  have hspace : Nested .code (" ".toList ++ []) :=
    Nested.plain (Numerals.forall_mem_of_all (by decide)) .nil
  have hinner : Nested .code (" g ".toList ++ opening :: (" ".toList ++ closing :: " ".toList)) :=
    Nested.plain (Numerals.forall_mem_of_all (by decide)) (.block hspace hspace)
  have hblock : Block .code "f() \x7b\n  a();\n\x7d\n".toList "f() ".toList
      ("\n  a();\n".toList ++ []) "\n".toList := ⟨by decide, by decide, hbody⟩
  exact (applySignatureOnly_twins lowerAscii id "Java".toList (by decide) _).2 _
    (hblock.twin hinner) (tracks_of_clean (by decide)) (tracks_of_clean (by decide))

/-- The brace in the literal empties the stack, and the line after it is sent out. -/
theorem applySignatureOnly_literal :
    Twin .code "f() \x7b\n  s = \"\x7d\";\n  alpha();\n\x7d\n".toList
      "f() \x7b\n  s = \"\x7d\";\n  beta();\n\x7d\n".toList ∧
    applySignatureOnly lowerAscii id "f() \x7b\n  s = \"\x7d\";\n  alpha();\n\x7d\n".toList
      "Java".toList ≠
    applySignatureOnly lowerAscii id "f() \x7b\n  s = \"\x7d\";\n  beta();\n\x7d\n".toList
      "Java".toList := by
  have hbody : ∀ w : List Char, (∀ c ∈ w, c ≠ '"' ∧ c ≠ opening ∧ c ≠ closing) →
      Nested .code ("\n  s = ".toList ++ '"' :: ([closing] ++ '"' :: (w ++ []))) := fun w hw =>
    Nested.plain (Numerals.forall_mem_of_all (by decide))
      (Nested.literal (Numerals.forall_mem_of_all (by decide)) (Nested.plain hw .nil))
  have hblock : Block .code "f() \x7b\n  s = \"\x7d\";\n  alpha();\n\x7d\n".toList "f() ".toList
      ("\n  s = ".toList ++ '"' :: ([closing] ++ '"' :: (";\n  alpha();\n".toList ++ [])))
      "\n".toList := ⟨by decide, by decide, hbody _ (Numerals.forall_mem_of_all (by decide))⟩
  have hbeta := hbody ";\n  beta();\n".toList (Numerals.forall_mem_of_all (by decide))
  exact ⟨hblock.twin hbeta, by decide⟩

end SpineFormal.Verify
