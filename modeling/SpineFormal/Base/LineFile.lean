import Mathlib.Data.List.DropRight
import Mathlib.Data.List.Induction
import SpineFormal.Base.TextCodec

/-!
# Lines of a file that grows

A reader that takes whole lines off a file sees bytes that end in a newline. It
decodes them with replacement and splits the text at every line break there is,
of which the newline is one. The newlines of the bytes are always breaks of the
text; other characters, and a carriage return before the newline, are breaks too.
-/

namespace SpineFormal

set_option autoImplicit false

/-! ## Decoding with replacement -/

/-- The bytes of a character still to come, its value so far and the range of the next byte. -/
structure Pending where
  need : Nat
  value : Nat
  low : UInt8
  high : UInt8
  low_ge : 0x80 ≤ low
  deriving DecidableEq

/-- The first byte of a character, or what cannot be one. -/
def utf8Start (b : UInt8) : List Char × Option Pending :=
  if b < 0x80 then ([Char.ofNat b.toNat], none)
  else if 0xc2 ≤ b ∧ b ≤ 0xdf then ([], some ⟨1, b.toNat % 32, 0x80, 0xbf, by decide⟩)
  else if b = 0xe0 then ([], some ⟨2, 0, 0xa0, 0xbf, by decide⟩)
  else if b = 0xed then ([], some ⟨2, 13, 0x80, 0x9f, by decide⟩)
  else if 0xe1 ≤ b ∧ b ≤ 0xef then ([], some ⟨2, b.toNat % 16, 0x80, 0xbf, by decide⟩)
  else if b = 0xf0 then ([], some ⟨3, 0, 0x90, 0xbf, by decide⟩)
  else if b = 0xf4 then ([], some ⟨3, 4, 0x80, 0x8f, by decide⟩)
  else if 0xf1 ≤ b ∧ b ≤ 0xf3 then ([], some ⟨3, b.toNat % 8, 0x80, 0xbf, by decide⟩)
  else (['\ufffd'], none)

def utf8Step : Option Pending → UInt8 → List Char × Option Pending
  | none, b => utf8Start b
  | some p, b =>
    if p.low ≤ b ∧ b ≤ p.high then
      if p.need ≤ 1 then ([Char.ofNat (p.value * 64 + b.toNat % 64)], none)
      else ([], some ⟨p.need - 1, p.value * 64 + b.toNat % 64, 0x80, 0xbf, by decide⟩)
    else ('\ufffd' :: (utf8Start b).1, (utf8Start b).2)

def decodeFrom : Option Pending → Bytes → List Char
  | none, [] => []
  | some _, [] => ['\ufffd']
  | st, b :: bs => (utf8Step st b).1 ++ decodeFrom (utf8Step st b).2 bs

/-- `bs.decode("utf-8", errors="replace")`. -/
def decodeReplace (bs : Bytes) : List Char := decodeFrom none bs

theorem decodeFrom_cons (st : Option Pending) (b : UInt8) (bs : Bytes) :
    decodeFrom st (b :: bs) = (utf8Step st b).1 ++ decodeFrom (utf8Step st b).2 bs := by
  cases st <;> rfl

/-- A newline ends whatever character was under way. -/
theorem decodeFrom_newline (st : Option Pending) (bs rest : Bytes) :
    decodeFrom st (bs ++ 10 :: rest) = decodeFrom st bs ++ '\n' :: decodeReplace rest := by
  induction bs generalizing st with
  | nil =>
    cases st with
    | none => rfl
    | some p =>
      have hno : ¬ (p.low ≤ 10 ∧ 10 ≤ p.high) := by
        rintro ⟨hlow, -⟩
        exact absurd (UInt8.le_trans p.low_ge hlow) (by decide)
      have hstep : utf8Step (some p) 10 = ('\ufffd' :: (utf8Start 10).1, (utf8Start 10).2) :=
        if_neg hno
      rw [List.nil_append, decodeFrom_cons, hstep]
      rfl
  | cons b bs ih => rw [List.cons_append, decodeFrom_cons, decodeFrom_cons, ih, List.append_assoc]

theorem decodeReplace_newline (line rest : Bytes) :
    decodeReplace (line ++ 10 :: rest) = decodeReplace line ++ '\n' :: decodeReplace rest :=
  decodeFrom_newline none line rest

/-! ### Text is read back -/

theorem utf8Start_ascii : ∀ n ≤ 0x7f, utf8Start (UInt8.ofNat n) = ([Char.ofNat n], none) := by
  decide +kernel

theorem utf8Start_two : ∀ n < 0x20, 2 ≤ n →
    utf8Start (UInt8.ofNat (n + 0xc0)) = ([], some ⟨1, n, 0x80, 0xbf, by decide⟩) := by
  decide +kernel

theorem utf8Start_three : ∀ n < 0x10, utf8Start (UInt8.ofNat (n + 0xe0)) =
    ([], some (if n = 0 then ⟨2, 0, 0xa0, 0xbf, by decide⟩
      else if n = 13 then ⟨2, 13, 0x80, 0x9f, by decide⟩
      else ⟨2, n, 0x80, 0xbf, by decide⟩)) := by
  decide +kernel

theorem utf8Start_four : ∀ n < 5, utf8Start (UInt8.ofNat (n + 0xf0)) =
    ([], some (if n = 0 then ⟨3, 0, 0x90, 0xbf, by decide⟩
      else if n = 4 then ⟨3, 4, 0x80, 0x8f, by decide⟩
      else ⟨3, n, 0x80, 0xbf, by decide⟩)) := by
  decide +kernel

theorem utf8Step_next {p : Pending} {n : Nat} (hn : n < 64) (hlow : p.low.toNat ≤ n + 0x80)
    (hhigh : n + 0x80 ≤ p.high.toNat) :
    utf8Step (some p) (UInt8.ofNat (n + 0x80)) =
      if p.need ≤ 1 then ([Char.ofNat (p.value * 64 + n)], none)
      else ([], some ⟨p.need - 1, p.value * 64 + n, 0x80, 0xbf, by decide⟩) := by
  have hb : (UInt8.ofNat (n + 0x80)).toNat = n + 0x80 := by
    rw [UInt8.toNat_ofNat']
    omega
  have hrange : p.low ≤ UInt8.ofNat (n + 0x80) ∧ UInt8.ofNat (n + 0x80) ≤ p.high := by
    rw [UInt8.le_iff_toNat_le, UInt8.le_iff_toNat_le, hb]
    exact ⟨hlow, hhigh⟩
  have hmod : (n + 0x80) % 64 = n := by omega
  rw [utf8Step, if_pos hrange, hb, hmod]

theorem decodeFrom_encodeChar (c : Char) (bs : Bytes) :
    decodeFrom none (String.utf8EncodeChar c ++ bs) = c :: decodeFrom none bs := by
  have hc : Char.ofNat c.val.toNat = c := Char.ofNat_toNat c
  have hvalid : c.val.toNat < 0xd800 ∨ (0xdfff < c.val.toNat ∧ c.val.toNat < 0x110000) := c.valid
  unfold String.utf8EncodeChar
  generalize c.val.toNat = v at hc hvalid
  dsimp only
  by_cases h1 : v ≤ 0x7f
  · rw [if_pos h1, List.singleton_append, decodeFrom_cons, utf8Step, utf8Start_ascii v h1, hc]
    rfl
  rw [if_neg h1]
  by_cases h2 : v ≤ 0x7ff
  · have hsum : v / 64 % 0x20 * 64 + v % 64 = v := by omega
    rw [if_pos h2, List.cons_append, List.singleton_append, decodeFrom_cons, utf8Step,
      utf8Start_two _ (by omega) (by omega), decodeFrom_cons,
      utf8Step_next (by omega) (by simp) (by simp; omega)]
    simp [hsum, hc]
  rw [if_neg h2]
  by_cases h3 : v ≤ 0xffff
  · have hsum : (v / 4096 % 16 * 64 + v / 64 % 64) * 64 + v % 64 = v := by omega
    rw [if_pos h3, List.cons_append, List.cons_append, List.singleton_append, decodeFrom_cons,
      utf8Step, utf8Start_three _ (by omega), decodeFrom_cons]
    have hsecond : utf8Step (some (if v / 4096 % 16 = 0 then ⟨2, 0, 0xa0, 0xbf, by decide⟩
        else if v / 4096 % 16 = 13 then ⟨2, 13, 0x80, 0x9f, by decide⟩
        else ⟨2, v / 4096 % 16, 0x80, 0xbf, by decide⟩)) (UInt8.ofNat (v / 64 % 64 + 0x80)) =
          ([], some ⟨1, v / 4096 % 16 * 64 + v / 64 % 64, 0x80, 0xbf, by decide⟩) := by
      split_ifs with h0 h13
      · rw [utf8Step_next (by omega) (by simp; omega) (by simp; omega)]
        simp [h0]
      · rw [utf8Step_next (by omega) (by simp) (by simp; omega)]
        simp [h13]
      · rw [utf8Step_next (by omega) (by simp) (by simp; omega)]
        simp
    rw [hsecond, decodeFrom_cons, utf8Step_next (by omega) (by simp) (by simp; omega)]
    simp [hsum, hc]
  · have hsum : ((v / 262144 % 8 * 64 + v / 4096 % 64) * 64 + v / 64 % 64) * 64 + v % 64 = v := by
      omega
    rw [if_neg h3, List.cons_append, List.cons_append, List.cons_append, List.singleton_append,
      decodeFrom_cons, utf8Step, utf8Start_four _ (by omega), decodeFrom_cons]
    have hsecond : utf8Step (some (if v / 262144 % 8 = 0 then ⟨3, 0, 0x90, 0xbf, by decide⟩
        else if v / 262144 % 8 = 4 then ⟨3, 4, 0x80, 0x8f, by decide⟩
        else ⟨3, v / 262144 % 8, 0x80, 0xbf, by decide⟩)) (UInt8.ofNat (v / 4096 % 64 + 0x80)) =
          ([], some ⟨2, v / 262144 % 8 * 64 + v / 4096 % 64, 0x80, 0xbf, by decide⟩) := by
      split_ifs with h0 h4
      · rw [utf8Step_next (by omega) (by simp; omega) (by simp; omega)]
        simp [h0]
      · rw [utf8Step_next (by omega) (by simp) (by simp; omega)]
        simp [h4]
      · rw [utf8Step_next (by omega) (by simp) (by simp; omega)]
        simp
    rw [hsecond, decodeFrom_cons, utf8Step_next (by omega) (by simp) (by simp; omega)]
    simp only [Nat.reduceSub, Nat.reduceLeDiff, if_false, List.nil_append]
    rw [decodeFrom_cons, utf8Step_next (by omega) (by simp) (by simp; omega)]
    simp [hsum, hc]

theorem decodeReplace_encodeUtf8 (s : List Char) : decodeReplace (encodeUtf8 s) = s := by
  induction s with
  | nil => rfl
  | cons c s ih =>
    rw [decodeReplace, encodeUtf8, List.flatMap_cons, decodeFrom_encodeChar]
    exact congrArg (c :: ·) ih
/-! ## Splitting a text -/

theorem splitlines_cons_of_break {c : Char} (hc : lineBreak c = true) {s : List Char}
    (hs : ∀ t, c = '\r' → s = '\n' :: t → False) : splitlines (c :: s) = [] :: splitlines s := by
  rw [splitlines, if_pos hc]
  exact hs

theorem splitlines_cons_of_plain {c : Char} (hc : lineBreak c = false) (s : List Char) :
    splitlines (c :: s) = match splitlines s with
      | [] => [[c]]
      | line :: lines => (c :: line) :: lines := by
  rw [splitlines]
  · rw [hc]
    cases splitlines s <;> rfl
  · rintro t rfl rfl
    exact absurd hc (by decide)

theorem splitlines_ne_nil {s : List Char} (h : s ≠ []) : splitlines s ≠ [] := by
  induction s using splitlines.induct with
  | case1 => contradiction
  | case2 rest ih => simp [splitlines]
  | case3 c rest hno hc ih => simp [splitlines, hc]
  | case4 c rest hno hc hnil ih => simp [splitlines, hc, hnil]
  | case5 c rest hno hc line lines hcons ih => simp [splitlines, hc, hcons]

theorem eq_nil_of_splitlines {s : List Char} (h : splitlines s = []) : s = [] := by
  by_contra hne
  exact splitlines_ne_nil hne h

/-- A newline ends a line whatever stands before it. -/
theorem splitlines_newline (s rest : List Char) :
    splitlines (s ++ '\n' :: rest) = splitlines (s ++ ['\n']) ++ splitlines rest := by
  induction s using splitlines.induct with
  | case1 => rfl
  | case2 t ih => simp only [List.cons_append, splitlines, ih]
  | case3 c t hno hc ih =>
    rw [List.cons_append, List.cons_append]
    cases t with
    | nil =>
      by_cases hr : c = '\r'
      · subst hr
        rfl
      · rw [splitlines_cons_of_break hc fun _ h => absurd h hr,
          splitlines_cons_of_break hc fun _ h => absurd h hr, ih]
        rfl
    | cons d t =>
      have hd : ∀ u v, c = '\r' → d :: u = '\n' :: v → False := by
        rintro u v rfl h
        exact hno t rfl (congrArg (· :: t) (List.cons_eq_cons.mp h).1)
      rw [List.cons_append, List.cons_append, splitlines_cons_of_break hc (hd _),
        splitlines_cons_of_break hc (hd _), ← List.cons_append, ← List.cons_append, ih]
      rfl
  | case4 c t hno hc hnil ih =>
    have hc' : lineBreak c = false := by simpa using hc
    obtain rfl := eq_nil_of_splitlines hnil
    rw [List.cons_append, List.cons_append, splitlines_cons_of_plain hc',
      splitlines_cons_of_plain hc', ih]
    rfl
  | case5 c t hno hc line lines hcons ih =>
    have hc' : lineBreak c = false := by simpa using hc
    rw [List.cons_append, List.cons_append, splitlines_cons_of_plain hc',
      splitlines_cons_of_plain hc', ih]
    obtain ⟨l, ls, hl⟩ := List.exists_cons_of_ne_nil (splitlines_ne_nil
      (show t ++ ['\n'] ≠ [] by simp))
    rw [hl]
    rfl

/-! ## Trimming -/

section
variable {space : Char → Bool} {s t : List Char}

theorem trimBy_eq_nil_iff : trimBy space s = [] ↔ ∀ c ∈ s, space c = true := by
  rw [trimBy, List.reverse_eq_nil_iff, List.dropWhile_eq_nil_iff]
  constructor
  · intro h c hc
    by_contra hno
    have hne : s.dropWhile space ≠ [] := fun h0 => hno (List.dropWhile_eq_nil_iff.mp h0 c hc)
    have hhead := List.head_dropWhile_not space hne
    have hmem := h _ (List.mem_reverse.mpr (List.head_mem hne))
    rw [hhead] at hmem
    contradiction
  · intro h c hc
    exact h c ((List.dropWhile_sublist space).subset (List.mem_reverse.mp hc))

theorem trimBy_cons_space {c : Char} (hc : space c = true) (s : List Char) :
    trimBy space (c :: s) = trimBy space s := by
  rw [trimBy, List.dropWhile_cons_of_pos hc, trimBy]

theorem trimBy_space_append (ht : ∀ c ∈ t, space c = true) (s : List Char) :
    trimBy space (t ++ s) = trimBy space s := by
  rw [trimBy, List.dropWhile_append_of_pos ht, trimBy]

theorem trimBy_eq_self (h : ∀ c ∈ s, space c = false) : trimBy space s = s := by
  have hkeep : ∀ r : List Char, (∀ c ∈ r, space c = false) → r.dropWhile space = r := by
    intro r hr
    cases r with
    | nil => rfl
    | cons c r => exact List.dropWhile_cons_of_neg (by simp [hr c (.head _)])
  rw [trimBy, hkeep s h, hkeep s.reverse fun c hc => h c (List.mem_reverse.mp hc),
    List.reverse_reverse]

theorem trimBy_append_space (s : List Char) (ht : ∀ c ∈ t, space c = true) :
    trimBy space (s ++ t) = trimBy space s := by
  have hback : ∀ c ∈ t.reverse, space c = true := fun c hc => ht c (List.mem_reverse.mp hc)
  by_cases hs : s.dropWhile space = []
  · have hall := List.dropWhile_eq_nil_iff.mp hs
    rw [trimBy_eq_nil_iff.mpr hall, trimBy_eq_nil_iff]
    intro c hc
    exact (List.mem_append.mp hc).elim (hall c) (ht c)
  · have hempty : (s.dropWhile space).isEmpty = false := by simpa using hs
    rw [trimBy, List.dropWhile_append, hempty]
    simp only [Bool.false_eq_true, if_false]
    rw [List.reverse_append, List.dropWhile_append_of_pos hback, trimBy]

/-- What is trimmed off is space. -/
theorem exists_trimBy (space : Char → Bool) (s : List Char) : ∃ a b,
    s = a ++ (trimBy space s ++ b) ∧ (∀ c ∈ a, space c = true) ∧ ∀ c ∈ b, space c = true := by
  refine ⟨s.takeWhile space, ((s.dropWhile space).reverse.takeWhile space).reverse, ?_, ?_, ?_⟩
  · rw [trimBy, ← List.reverse_append, List.takeWhile_append_dropWhile, List.reverse_reverse,
      List.takeWhile_append_dropWhile]
  · exact fun c hc => List.mem_takeWhile_imp hc
  · exact fun c hc => List.mem_takeWhile_imp (List.mem_reverse.mp hc)

theorem trimBy_trimBy (space : Char → Bool) (s : List Char) :
    trimBy space (trimBy space s) = trimBy space s := by
  obtain ⟨a, b, hs, ha, hb⟩ := exists_trimBy space s
  have htrim := congrArg (trimBy space) hs
  rw [trimBy_space_append ha, trimBy_append_space _ hb] at htrim
  exact htrim.symm

end

/-- What `str_strip_whitespace` makes of a string. -/
def stripText (s : String) : String := String.ofList (trimBy whiteSpace s.toList)

theorem stripText_stripText (s : String) : stripText (stripText s) = stripText s := by
  rw [stripText, stripText, String.toList_ofList, trimBy_trimBy]

/-! ## What a splitter hands on -/

/-- The lines that are not blank, trimmed. -/
def strippedLines (lines : List (List Char)) : List (List Char) :=
  (lines.map (trimBy pySpace)).filter (· ≠ [])

theorem strippedLines_cons (line : List Char) (lines : List (List Char)) :
    strippedLines (line :: lines) =
      if trimBy pySpace line = [] then strippedLines lines
      else trimBy pySpace line :: strippedLines lines := by
  rw [strippedLines, List.map_cons, List.filter_cons]
  by_cases h : trimBy pySpace line = []
  · simp [h, strippedLines]
  · simp [h, strippedLines]

theorem strippedLines_nil_cons (lines : List (List Char)) :
    strippedLines ([] :: lines) = strippedLines lines := rfl

theorem strippedLines_append (xs ys : List (List Char)) :
    strippedLines (xs ++ ys) = strippedLines xs ++ strippedLines ys := by
  simp [strippedLines]

theorem pySpace_of_lineBreak {c : Char} (h : lineBreak c = true) : pySpace c = true := by
  simp only [lineBreak, Bool.or_eq_true, decide_eq_true_eq, List.contains_eq_mem, List.mem_cons,
    List.not_mem_nil, or_false] at h
  simp only [pySpace, whiteSpace, Bool.or_eq_true, decide_eq_true_eq, List.contains_eq_mem,
    List.mem_cons, List.not_mem_nil, or_false]
  omega

/-- A text whose pieces are all blank is blank. -/
theorem blank_of_pieces {s : List Char} (h : strippedLines (splitlines s) = []) :
    trimBy pySpace s = [] := by
  induction s using splitlines.induct with
  | case1 => rfl
  | case2 t ih =>
    rw [splitlines, strippedLines_nil_cons] at h
    rw [trimBy_cons_space (by decide), trimBy_cons_space (by decide), ih h]
  | case3 c t hno hc ih =>
    rw [splitlines_cons_of_break hc hno, strippedLines_nil_cons] at h
    rw [trimBy_cons_space (pySpace_of_lineBreak hc), ih h]
  | case4 c t hno hc hnil ih =>
    have hc' : lineBreak c = false := by simpa using hc
    obtain rfl := eq_nil_of_splitlines hnil
    rw [splitlines_cons_of_plain hc', hnil, strippedLines_cons] at h
    by_contra hne
    rw [if_neg hne] at h
    contradiction
  | case5 c t hno hc line lines hcons ih =>
    have hc' : lineBreak c = false := by simpa using hc
    rw [splitlines_cons_of_plain hc', hcons, strippedLines_cons] at h
    by_cases hline : trimBy pySpace (c :: line) = []
    · rw [if_pos hline] at h
      have hall := trimBy_eq_nil_iff.mp hline
      have hspace := hall c List.mem_cons_self
      have hrest : trimBy pySpace line = [] :=
        trimBy_eq_nil_iff.mpr fun d hd => hall d (List.mem_cons_of_mem c hd)
      rw [hcons, strippedLines_cons, if_pos hrest] at ih
      rw [trimBy_cons_space hspace, ih h]
    · rw [if_neg hline] at h
      contradiction

/-- Where only the first piece is not blank, the text is that piece and blanks after it. -/
theorem first_piece {s line : List Char} {lines : List (List Char)}
    (h : splitlines s = line :: lines) (hblank : strippedLines lines = []) :
    ∃ t, s = line ++ t ∧ ∀ c ∈ t, pySpace c = true := by
  induction s using splitlines.induct generalizing line lines with
  | case1 => cases h
  | case2 t ih =>
    rw [splitlines] at h
    obtain ⟨rfl, rfl⟩ := List.cons_eq_cons.mp h
    refine ⟨'\r' :: '\n' :: t, rfl, fun c hc => ?_⟩
    rcases List.mem_cons.mp hc with rfl | hc
    · decide
    · rcases List.mem_cons.mp hc with rfl | hc
      · decide
      · exact trimBy_eq_nil_iff.mp (blank_of_pieces hblank) c hc
  | case3 c t hno hc ih =>
    rw [splitlines_cons_of_break hc hno] at h
    obtain ⟨rfl, rfl⟩ := List.cons_eq_cons.mp h
    refine ⟨c :: t, rfl, fun d hd => ?_⟩
    rcases List.mem_cons.mp hd with rfl | hd
    · exact pySpace_of_lineBreak hc
    · exact trimBy_eq_nil_iff.mp (blank_of_pieces hblank) d hd
  | case4 c t hno hc hnil ih =>
    have hc' : lineBreak c = false := by simpa using hc
    obtain rfl := eq_nil_of_splitlines hnil
    rw [splitlines_cons_of_plain hc', hnil] at h
    obtain ⟨rfl, rfl⟩ := List.cons_eq_cons.mp h
    exact ⟨[], rfl, by simp⟩
  | case5 c t hno hc line' lines' hcons ih =>
    have hc' : lineBreak c = false := by simpa using hc
    rw [splitlines_cons_of_plain hc', hcons] at h
    obtain ⟨rfl, rfl⟩ := List.cons_eq_cons.mp h
    obtain ⟨u, hu, hspace⟩ := ih hcons hblank
    exact ⟨u, by rw [hu]; rfl, hspace⟩

/-- A text with one piece that is not blank, or none, is handed on as a whole. -/
theorem strippedLines_splitlines {s : List Char}
    (h : (strippedLines (splitlines s)).length ≤ 1) :
    strippedLines (splitlines s) = strippedLines [s] := by
  induction s using splitlines.induct with
  | case1 => rfl
  | case2 t ih =>
    rw [splitlines, strippedLines_nil_cons] at h ⊢
    rw [ih h, strippedLines_cons, strippedLines_cons, trimBy_cons_space (by decide),
      trimBy_cons_space (by decide)]
  | case3 c t hno hc ih =>
    rw [splitlines_cons_of_break hc hno, strippedLines_nil_cons] at h ⊢
    rw [ih h, strippedLines_cons, strippedLines_cons, trimBy_cons_space (pySpace_of_lineBreak hc)]
  | case4 c t hno hc hnil ih =>
    have hc' : lineBreak c = false := by simpa using hc
    obtain rfl := eq_nil_of_splitlines hnil
    rw [splitlines_cons_of_plain hc', hnil]
  | case5 c t hno hc line lines hcons ih =>
    have hc' : lineBreak c = false := by simpa using hc
    rw [splitlines_cons_of_plain hc', hcons] at h ⊢
    rw [hcons] at ih
    by_cases hspace : pySpace c = true
    · rw [strippedLines_cons, trimBy_cons_space hspace, ← strippedLines_cons] at h ⊢
      rw [ih h, strippedLines_cons, strippedLines_cons, trimBy_cons_space hspace]
    · -- the first piece is not blank, so the others are
      have hne : ∀ u, trimBy pySpace (c :: u) ≠ [] := fun u hu =>
        hspace (trimBy_eq_nil_iff.mp hu c List.mem_cons_self)
      rw [strippedLines_cons, if_neg (hne line), List.length_cons] at h
      have hblank : strippedLines lines = [] := List.length_eq_zero_iff.mp (by omega)
      obtain ⟨u, hu, hblanks⟩ := first_piece hcons hblank
      rw [strippedLines_cons, if_neg (hne line), hblank, strippedLines_cons, if_neg (hne t), hu,
        ← List.cons_append, trimBy_append_space _ hblanks]
      rfl

/-! ## Whole lines of bytes -/

/-- The lines that a newline ends, without it. -/
def newlineLines : Bytes → List Bytes
  | [] => []
  | b :: bs =>
    if b = 10 then [] :: newlineLines bs
    else
      match newlineLines bs with
      | [] => []
      | line :: lines => (b :: line) :: lines

def joinLines (lines : List Bytes) : Bytes := lines.flatMap (· ++ [10])

theorem joinLines_cons (line : Bytes) (lines : List Bytes) :
    joinLines (line :: lines) = line ++ 10 :: joinLines lines := by
  simp [joinLines]

theorem newlineLines_line {line : Bytes} (h : 10 ∉ line) (rest : Bytes) :
    newlineLines (line ++ 10 :: rest) = line :: newlineLines rest := by
  induction line with
  | nil => rw [List.nil_append, newlineLines, if_pos rfl]
  | cons b line ih =>
    obtain ⟨hb, hline⟩ := List.ne_and_not_mem_of_not_mem_cons h
    rw [List.cons_append, newlineLines, if_neg (Ne.symm hb), ih hline]

theorem newlineLines_join {lines : List Bytes} (h : ∀ line ∈ lines, 10 ∉ line) (rest : Bytes) :
    newlineLines (joinLines lines ++ rest) = lines ++ newlineLines rest := by
  induction lines with
  | nil => rfl
  | cons line lines ih =>
    rw [joinLines_cons, List.append_assoc, List.cons_append,
      newlineLines_line (h line List.mem_cons_self),
      ih fun l hl => h l (List.mem_cons_of_mem line hl), List.cons_append]

/-- A file is its whole lines and a rest without a newline. -/
theorem newlineLines_spec (bs : Bytes) : (∀ line ∈ newlineLines bs, 10 ∉ line) ∧
    ∃ rest, bs = joinLines (newlineLines bs) ++ rest ∧ 10 ∉ rest := by
  induction bs with
  | nil => exact ⟨by simp [newlineLines], [], rfl, by simp⟩
  | cons b bs ih =>
    obtain ⟨hlines, rest, hbs, hrest⟩ := ih
    by_cases hb : b = 10
    · subst hb
      rw [newlineLines, if_pos rfl]
      refine ⟨?_, rest, ?_, hrest⟩
      · intro line hl
        rcases List.mem_cons.mp hl with rfl | hl
        · simp
        · exact hlines line hl
      · rw [joinLines_cons, List.nil_append, List.cons_append, ← hbs]
    · rw [newlineLines, if_neg hb]
      cases hl : newlineLines bs with
      | nil =>
        rw [hl] at hbs
        refine ⟨by simp, b :: rest, congrArg (b :: ·) hbs, ?_⟩
        exact List.not_mem_cons_of_ne_of_not_mem (Ne.symm hb) hrest
      | cons line lines =>
        rw [hl] at hlines hbs
        refine ⟨?_, rest, ?_, hrest⟩
        · intro l hmem
          rcases List.mem_cons.mp hmem with rfl | hmem
          · exact List.not_mem_cons_of_ne_of_not_mem (Ne.symm hb) (hlines line List.mem_cons_self)
          · exact hlines l (List.mem_cons_of_mem line hmem)
        · rw [joinLines_cons, List.cons_append, List.cons_append, ← joinLines_cons, ← hbs]

/-- `buf[: buf.rfind(b"\n") + 1]`. -/
theorem rdropWhile_newline (bs : Bytes) :
    bs.rdropWhile (· != 10) = joinLines (newlineLines bs) := by
  obtain ⟨-, rest, hbs, hrest⟩ := newlineLines_spec bs
  generalize newlineLines bs = lines at hbs
  subst hbs
  have hdrop : ∀ c ∈ rest.reverse, (c != 10) = true := by
    intro c hc
    have hne : c ≠ 10 := fun h => hrest (h ▸ List.mem_reverse.mp hc)
    simpa using hne
  rw [List.rdropWhile, List.reverse_append, List.dropWhile_append_of_pos hdrop]
  induction lines using List.reverseRecOn with
  | nil => rfl
  | append_singleton lines line _ => simp [joinLines]

/-- The text of whole lines is split line by line. -/
theorem splitlines_joinLines (lines : List Bytes) :
    splitlines (decodeReplace (joinLines lines)) =
      lines.flatMap fun line => splitlines (decodeReplace line ++ ['\n']) := by
  induction lines with
  | nil => rfl
  | cons line lines ih =>
    rw [joinLines_cons, decodeReplace_newline, splitlines_newline, ih, List.flatMap_cons]

theorem joinLines_append (xs ys : List Bytes) :
    joinLines (xs ++ ys) = joinLines xs ++ joinLines ys := by
  simp [joinLines]

/-- Whole lines end in a newline. -/
theorem joinLines_last {lines : List Bytes} (h : lines ≠ []) (rest : Bytes) :
    (joinLines lines ++ rest)[(joinLines lines).length - 1]? = some 10 := by
  obtain ⟨init, last, rfl⟩ := List.eq_nil_or_concat' lines |>.resolve_left h
  rw [joinLines_append, joinLines_cons]
  simp [joinLines]

end SpineFormal
