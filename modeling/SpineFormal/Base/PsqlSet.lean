import SpineFormal.Base.LineFile

/-!
# `\set` as psql reads it

A script is read line by line. A line `\set name 'text'` gives a variable the text
between its quotes, in which two quotes stand for one and a backslash begins an
escape. What follows the closing quote on the line is a parameter: the value may go
on there, or another command begin.

Text whose quotes are doubled is read back as it was exactly when it has no
backslash and no newline. With a backslash a shorter text is read, or a quote that
should have been part of it ends it: once the text read has fallen behind the text
written, the two can only agree as long as no quote comes.
-/

namespace SpineFormal.Psql

set_option autoImplicit false

/-! ## A quoted argument -/

def octalDigit (b : UInt8) : Option Nat := if 48 ≤ b ∧ b ≤ 55 then some (b.toNat - 48) else none

def hexDigit (b : UInt8) : Option Nat :=
  if 48 ≤ b ∧ b ≤ 57 then some (b.toNat - 48)
  else if 65 ≤ b ∧ b ≤ 70 then some (b.toNat - 55)
  else if 97 ≤ b ∧ b ≤ 102 then some (b.toNat - 87)
  else none

/-- The digits a number of at most `limit` digits begins a text with. -/
def leading (digit : UInt8 → Option Nat) (limit : Nat) (s : Bytes) : Bytes :=
  (s.take limit).takeWhile fun b => (digit b).isSome

def byteOf (digit : UInt8 → Option Nat) (base : Nat) (digits : Bytes) : UInt8 :=
  UInt8.ofNat ((digits.filterMap digit).foldl (fun n d => n * base + d) 0)

/-- The byte a letter behind a backslash stands for. -/
def letterEscape (c : UInt8) : UInt8 :=
  if c = 110 then 10 else if c = 116 then 9 else if c = 98 then 8 else if c = 114 then 13
  else if c = 102 then 12 else c

/-- What stands behind a backslash: the byte it means and the text behind it. -/
def escape : Bytes → Option (UInt8 × Bytes)
  | [] => none
  | c :: s =>
    let octal := leading octalDigit 3 (c :: s)
    let hex := leading hexDigit 2 s
    if octal ≠ [] then some (byteOf octalDigit 8 octal, (c :: s).drop octal.length)
    else if c = 120 ∧ hex ≠ [] then some (byteOf hexDigit 16 hex, s.drop hex.length)
    else some (letterEscape c, s)

/-- The text up to the closing quote and what follows it; `none` is an unterminated quote. -/
def quoted : Nat → Bytes → Option (Bytes × Bytes)
  | _, [] => none
  | 0, _ => none
  | fuel + 1, b :: s =>
    if b = 39 then
      if s.head? = some 39 then (quoted fuel s.tail).map fun p => (39 :: p.1, p.2)
      else some ([], s)
    else if b = 92 then
      (escape s).bind fun e => (quoted fuel e.2).map fun p => (e.1 :: p.1, p.2)
    else (quoted fuel s).map fun p => (b :: p.1, p.2)

/-- A text with its quotes doubled. -/
def doubled (v : Bytes) : Bytes := v.flatMap fun b => if b = 39 then [39, 39] else [b]

theorem leading_append_drop (digit : UInt8 → Option Nat) (limit : Nat) (s : Bytes) :
    s = leading digit limit s ++ s.drop (leading digit limit s).length :=
  (List.prefix_iff_eq_append.mp ((List.takeWhile_prefix _).trans (List.take_prefix _ _))).symm

theorem quote_notMem_leading {digit : UInt8 → Option Nat} (h : digit 39 = none) (limit : Nat)
    (s : Bytes) : 39 ∉ leading digit limit s := by
  intro hmem
  have hsome := List.mem_takeWhile_imp hmem
  simp [h] at hsome

/-- An escape takes at least a byte; a quote is taken only alone and means itself. -/
theorem escape_spec {s r : Bytes} {x : UInt8} (h : escape s = some (x, r)) :
    ∃ t, t ≠ [] ∧ s = t ++ r ∧ (39 ∈ t → x = 39) := by
  cases s with
  | nil => cases h
  | cons c s =>
    rw [escape] at h
    split_ifs at h with hoctal hhex
    · obtain ⟨rfl, rfl⟩ := Prod.mk.inj (Option.some.inj h)
      exact ⟨_, hoctal, leading_append_drop octalDigit 3 (c :: s),
        fun hq => absurd hq (quote_notMem_leading rfl 3 (c :: s))⟩
    · obtain ⟨rfl, rfl⟩ := Prod.mk.inj (Option.some.inj h)
      refine ⟨c :: leading hexDigit 2 s, List.cons_ne_nil _ _, ?_, fun hq => ?_⟩
      · rw [List.cons_append, ← leading_append_drop]
      · rcases List.mem_cons.mp hq with hq | hq
        · rw [hhex.1] at hq
          exact absurd hq (by decide)
        · exact absurd hq (quote_notMem_leading rfl 2 s)
    · obtain ⟨rfl, rfl⟩ := Prod.mk.inj (Option.some.inj h)
      refine ⟨[c], List.cons_ne_nil _ _, rfl, fun hq => ?_⟩
      rw [← List.mem_singleton.mp hq]
      rfl

/-! ## Reading doubled quotes -/

theorem doubled_quote (v : Bytes) : doubled (39 :: v) = 39 :: 39 :: doubled v := rfl

theorem doubled_plain {b : UInt8} (hb : b ≠ 39) (v : Bytes) :
    doubled (b :: v) = b :: doubled v := by
  rw [doubled, List.flatMap_cons, if_neg hb]
  rfl

theorem quoted_pair (fuel : Nat) (s : Bytes) :
    quoted (fuel + 1) (39 :: 39 :: s) = (quoted fuel s).map fun p => (39 :: p.1, p.2) := by
  rw [quoted, if_pos rfl]
  exact if_pos rfl

theorem quoted_close {s : Bytes} (h : s.head? ≠ some 39) (fuel : Nat) :
    quoted (fuel + 1) (39 :: s) = some ([], s) := by
  rw [quoted, if_pos rfl, if_neg h]

theorem quoted_escape (fuel : Nat) (s : Bytes) : quoted (fuel + 1) (92 :: s) =
    (escape s).bind fun e => (quoted fuel e.2).map fun p => (e.1 :: p.1, p.2) := by
  rw [quoted, if_neg (by decide), if_pos rfl]

theorem quoted_plain {b : UInt8} (hq : b ≠ 39) (hb : b ≠ 92) (fuel : Nat) (s : Bytes) :
    quoted (fuel + 1) (b :: s) = (quoted fuel s).map fun p => (b :: p.1, p.2) := by
  rw [quoted, if_neg hq, if_neg hb]

theorem doubled_append (v w : Bytes) : doubled (v ++ w) = doubled v ++ doubled w :=
  List.flatMap_append

theorem doubled_of_notMem {v : Bytes} (h : 39 ∉ v) : doubled v = v := by
  induction v with
  | nil => rfl
  | cons b v ih =>
    obtain ⟨hb, hv⟩ := List.ne_and_not_mem_of_not_mem_cons h
    rw [doubled_plain (Ne.symm hb), ih hv]

/-- Text without a backslash is read back as it was. -/
theorem quoted_doubled {v : Bytes} (hv : 92 ∉ v) {r : Bytes} (hr : r.head? ≠ some 39) {fuel : Nat}
    (hfuel : v.length < fuel) : quoted fuel (doubled v ++ 39 :: r) = some (v, r) := by
  induction v generalizing fuel with
  | nil =>
    obtain ⟨n, rfl⟩ := Nat.exists_eq_succ_of_ne_zero (Nat.ne_of_gt hfuel)
    exact quoted_close hr n
  | cons b v ih =>
    obtain ⟨n, rfl⟩ := Nat.exists_eq_succ_of_ne_zero (Nat.ne_of_gt (Nat.zero_lt_of_lt hfuel))
    obtain ⟨hb, hv⟩ := List.ne_and_not_mem_of_not_mem_cons hv
    have hrest := ih hv (Nat.lt_of_succ_lt_succ hfuel)
    by_cases hq : b = 39
    · subst hq
      rw [doubled_quote, List.cons_append, List.cons_append, quoted_pair, hrest]
      rfl
    · rw [doubled_plain hq, List.cons_append, quoted_plain hq (Ne.symm hb), hrest]
      rfl

/-- A stretch without quotes read off doubled text is a stretch of the text itself. -/
theorem doubled_split {v tail t r : Bytes} (htail : tail = [] ∨ tail = [39]) (ht : 39 ∉ t)
    (h : doubled v ++ tail = t ++ r) : ∃ w, v = t ++ w ∧ r = doubled w ++ tail := by
  induction t generalizing v with
  | nil => exact ⟨v, rfl, h.symm⟩
  | cons b t ih =>
    obtain ⟨hb, hrest⟩ := List.ne_and_not_mem_of_not_mem_cons ht
    cases v with
    | nil =>
      rcases htail with rfl | rfl
      · cases h
      · exact absurd (List.cons.inj h).1 hb
    | cons c v =>
      by_cases hc : c = 39
      · subst hc
        exact absurd (List.cons.inj h).1 hb
      · rw [doubled_plain hc] at h
        obtain ⟨rfl, hsplit⟩ := List.cons.inj h
        obtain ⟨w, rfl, hr⟩ := ih hrest hsplit
        exact ⟨w, rfl, hr⟩

/-- Once the text read is behind by a stretch `d` without quotes, it agrees with the text
written only if no quote comes before the closing one. -/
theorem quoted_behind {fuel : Nat} {s t d tail out r : Bytes} (htail : tail = [] ∨ tail = [39])
    (h : quoted fuel (doubled s ++ tail) = some (out, r)) (hd : d ≠ []) (hq : 39 ∉ d)
    (hpre : out <+: d ++ (s ++ t)) : tail = [39] ∧ r = [] ∧ out.length ≤ s.length := by
  induction fuel generalizing s d out with
  | zero => cases hs : doubled s ++ tail <;> simp [hs, quoted] at h
  | succ fuel ih =>
    obtain ⟨x, d, rfl⟩ := List.exists_cons_of_ne_nil hd
    obtain ⟨hx, hqd⟩ := List.ne_and_not_mem_of_not_mem_cons hq
    cases s with
    | nil =>
      rcases htail with rfl | rfl
      · cases h
      · obtain ⟨rfl, rfl⟩ := Prod.mk.inj (Option.some.inj h)
        exact ⟨rfl, rfl, Nat.zero_le _⟩
    | cons b s =>
      by_cases hb : b = 39
      · subst hb
        rw [doubled_quote, List.cons_append, List.cons_append, quoted_pair] at h
        obtain ⟨p, -, hp⟩ := Option.map_eq_some_iff.mp h
        obtain ⟨rfl, -⟩ := Prod.mk.inj hp
        exact absurd (List.cons_prefix_cons.mp hpre).1 hx
      by_cases hslash : b = 92
      · subst hslash
        rw [doubled_plain (by decide), List.cons_append, quoted_escape] at h
        obtain ⟨⟨y, r₁⟩, hesc, h⟩ := Option.bind_eq_some_iff.mp h
        obtain ⟨p, hp, heq⟩ := Option.map_eq_some_iff.mp h
        obtain ⟨rfl, rfl⟩ := Prod.mk.inj heq
        obtain ⟨rfl, hpre⟩ := List.cons_prefix_cons.mp hpre
        obtain ⟨t₁, hne, hsplit, hquote⟩ := escape_spec hesc
        have ht₁ : 39 ∉ t₁ := fun hmem => hx (hquote hmem).symm
        obtain ⟨w, rfl, rfl⟩ := doubled_split htail ht₁ hsplit
        have hbehind : p.1 <+: (d ++ 92 :: t₁) ++ (w ++ t) := by simpa using hpre
        obtain ⟨htail', hr, hlen⟩ := ih hp (by simp) (by simp [hqd, ht₁]) hbehind
        refine ⟨htail', hr, ?_⟩
        simp only [List.length_cons, List.length_append]
        omega
      · rw [doubled_plain hb, List.cons_append, quoted_plain hb hslash] at h
        obtain ⟨p, hp, heq⟩ := Option.map_eq_some_iff.mp h
        obtain ⟨rfl, rfl⟩ := Prod.mk.inj heq
        obtain ⟨rfl, hpre⟩ := List.cons_prefix_cons.mp hpre
        have hbehind : p.1 <+: (d ++ [b]) ++ (s ++ t) := by simpa using hpre
        obtain ⟨htail', hr, hlen⟩ := ih hp (by simp) (by simp [hqd, Ne.symm hb]) hbehind
        exact ⟨htail', hr, Nat.succ_le_succ hlen⟩

/-- What is read of a text, or of its beginning, agrees with it only up to the closing
quote, and is shorter when there was a backslash. -/
theorem quoted_agrees {fuel : Nat} {s t tail out r : Bytes} (htail : tail = [] ∨ tail = [39])
    (h : quoted fuel (doubled s ++ tail) = some (out, r)) (hpre : out <+: s ++ t) :
    tail = [39] ∧ r = [] ∧ (92 ∈ s → out.length < s.length) := by
  induction fuel generalizing s out with
  | zero => cases hs : doubled s ++ tail <;> simp [hs, quoted] at h
  | succ fuel ih =>
    cases s with
    | nil =>
      rcases htail with rfl | rfl
      · cases h
      · obtain ⟨rfl, rfl⟩ := Prod.mk.inj (Option.some.inj h)
        exact ⟨rfl, rfl, nofun⟩
    | cons b s =>
      by_cases hslash : b = 92
      · subst hslash
        rw [doubled_plain (by decide), List.cons_append, quoted_escape] at h
        obtain ⟨⟨y, r₁⟩, hesc, h⟩ := Option.bind_eq_some_iff.mp h
        obtain ⟨p, hp, heq⟩ := Option.map_eq_some_iff.mp h
        obtain ⟨rfl, rfl⟩ := Prod.mk.inj heq
        obtain ⟨rfl, hpre⟩ := List.cons_prefix_cons.mp hpre
        obtain ⟨t₁, hne, hsplit, hquote⟩ := escape_spec hesc
        have ht₁ : 39 ∉ t₁ := fun hmem => absurd (hquote hmem) (by decide)
        obtain ⟨w, rfl, rfl⟩ := doubled_split htail ht₁ hsplit
        obtain ⟨htail', hr, hlen⟩ := quoted_behind htail hp hne ht₁ (by simpa using hpre)
        refine ⟨htail', hr, fun _ => ?_⟩
        have hpos : 0 < t₁.length := List.length_pos_iff.mpr hne
        simp only [List.length_cons, List.length_append]
        omega
      · have hcons : ∃ p, quoted fuel (doubled s ++ tail) = some p ∧
            (b :: p.1, p.2) = (out, r) := by
          by_cases hb : b = 39
          · subst hb
            rw [doubled_quote, List.cons_append, List.cons_append, quoted_pair] at h
            exact Option.map_eq_some_iff.mp h
          · rw [doubled_plain hb, List.cons_append, quoted_plain hb hslash] at h
            exact Option.map_eq_some_iff.mp h
        obtain ⟨p, hp, heq⟩ := hcons
        obtain ⟨rfl, rfl⟩ := Prod.mk.inj heq
        obtain ⟨htail', hr, hlen⟩ := ih hp (List.cons_prefix_cons.mp hpre).2
        refine ⟨htail', hr, fun hmem => Nat.succ_lt_succ (hlen ?_)⟩
        exact (List.mem_cons.mp hmem).resolve_left (Ne.symm hslash)

/-! ## A script -/

/-- What a line of the script does. -/
inductive Action where
  | set (name value : Bytes)
  /-- `unterminated quoted string`. -/
  | unterminated (name : Bytes)
  deriving DecidableEq

/-- A letter, a digit or an underscore. -/
def wordByte (b : UInt8) : Bool :=
  (48 ≤ b && b ≤ 57) || (65 ≤ b && b ≤ 90) || (97 ≤ b && b ≤ 122) || b == 95

/-- How psql goes on with a line outside quotes, given what was done before: what it adds to
the value, and what it leaves for another command. A word stands for itself. -/
structure Bare where
  read : List Action → Bytes → Bytes × Bytes
  read_word : ∀ done word, word.all wordByte = true → read done word = (word, [])

variable (B : Bare)

/-- `\set `. -/
def setCommand : Bytes := [92, 115, 101, 116, 32]

/-- What a line beginning with `\set ` does, and what is left of it. -/
def readSet (done : List Action) (line : Bytes) : Option (Action × Bytes) :=
  if setCommand <+: line then
    let args := line.drop setCommand.length
    let name := args.takeWhile (· ≠ 32)
    match args.drop (name.length + 1) with
    | 39 :: text =>
      match quoted text.length text with
      | none => some (.unterminated name, [])
      | some (out, r) => some (.set name (out ++ (B.read done r).1), (B.read done r).2)
    | text => some (.set name (B.read done text).1, (B.read done text).2)
  else none

/-- The lines up to the first that is no `\set` command alone, and what the rest of psql gets. -/
def readLines : List Action → List Bytes → List Action × List Bytes
  | _, [] => ([], [])
  | done, line :: lines =>
    match readSet B done line with
    | none => ([], line :: lines)
    | some (a, []) =>
      let (actions, rest) := readLines (done ++ [a]) lines
      (a :: actions, rest)
    | some (a, left) => ([a], left :: lines)

/-- A script ends with a newline. -/
def readScript (done : List Action) (script : Bytes) : List Action × List Bytes :=
  readLines B done (newlineLines script)

/-- `\set name 'text'` with the quotes of the text doubled. -/
def setLine (name value : Bytes) : Bytes :=
  setCommand ++ (name ++ 32 :: 39 :: (doubled value ++ [39]))

theorem takeWhile_name {name : Bytes} (hname : 32 ∉ name) (args : Bytes) :
    (name ++ 32 :: args).takeWhile (· ≠ 32) = name := by
  rw [List.takeWhile_append_of_pos fun b hb => ?_]
  · simp
  · simpa using fun h : b = 32 => hname (h ▸ hb)

theorem drop_name (name args : Bytes) : (name ++ 32 :: args).drop (name.length + 1) = args := by
  rw [List.drop_append]
  simp

theorem readSet_quote {name : Bytes} (hname : 32 ∉ name) (done : List Action) (text : Bytes) :
    readSet B done (setCommand ++ (name ++ 32 :: 39 :: text)) =
      match quoted text.length text with
      | none => some (.unterminated name, [])
      | some (out, r) => some (.set name (out ++ (B.read done r).1), (B.read done r).2) := by
  rw [readSet, if_pos (List.prefix_append _ _), List.drop_left]
  simp only [takeWhile_name hname, drop_name]

theorem readSet_word {name word : Bytes} (hname : 32 ∉ name) (hword : word.all wordByte = true)
    (done : List Action) :
    readSet B done (setCommand ++ (name ++ 32 :: word)) = some (.set name word, []) := by
  rw [readSet, if_pos (List.prefix_append _ _), List.drop_left]
  simp only [takeWhile_name hname, drop_name]
  split
  · exact absurd hword (by simp [wordByte])
  · rw [B.read_word done word hword]

theorem mem_doubled {b : UInt8} {v : Bytes} : b ∈ doubled v ↔ b ∈ v := by
  induction v with
  | nil => rfl
  | cons c v ih =>
    by_cases hc : c = 39
    · subst hc
      rw [doubled_quote, List.mem_cons, List.mem_cons, List.mem_cons, ih]
      tauto
    · rw [doubled_plain hc, List.mem_cons, List.mem_cons, ih]

theorem length_le_doubled (v : Bytes) : v.length ≤ (doubled v).length := by
  induction v with
  | nil => exact Nat.le_refl 0
  | cons b v ih =>
    by_cases hb : b = 39
    · subst hb
      rw [doubled_quote]
      exact Nat.le_succ_of_le (Nat.succ_le_succ ih)
    · rw [doubled_plain hb]
      exact Nat.succ_le_succ ih

theorem newline_notMem_setLine {name value : Bytes} (hname : 10 ∉ name) (hvalue : 10 ∉ value) :
    10 ∉ setLine name value := by
  simp [setLine, setCommand, mem_doubled, hname, hvalue]

/-- A value free of backslashes and newlines is what its line gives the variable. -/
theorem readScript_setLine {name value : Bytes} (hspace : 32 ∉ name) (hname : 10 ∉ name)
    (hslash : 92 ∉ value) (hnewline : 10 ∉ value) (done : List Action) (rest : Bytes) :
    readScript B done (setLine name value ++ 10 :: rest) =
      (.set name value :: (readScript B (done ++ [.set name value]) rest).1,
        (readScript B (done ++ [.set name value]) rest).2) := by
  have hfuel : value.length < (doubled value ++ [39]).length := by
    rw [List.length_append, List.length_singleton]
    exact Nat.lt_succ_of_le (length_le_doubled value)
  have hquoted := quoted_doubled hslash (r := []) (by simp) hfuel
  have hline : readSet B done (setLine name value) = some (.set name value, []) := by
    rw [setLine, readSet_quote B hspace, hquoted]
    simp [B.read_word done [] rfl]
  rw [readScript, newlineLines_line (newline_notMem_setLine hname hnewline), readLines, hline]
  rfl

theorem readLines_head {done : List Action} {line left : Bytes} {a : Action}
    (h : readSet B done line = some (a, left)) (lines : List Bytes) :
    (readLines B done (line :: lines)).1.head? = some a := by
  rw [readLines, h]
  cases left <;> rfl

/-- The first line of a value with a newline, and a line whose value has a backslash, do
something else than give the variable its value. -/
theorem readSet_other {name p t tail : Bytes} (hspace : 32 ∉ name) (htail : tail = [] ∨ tail = [39])
    (hbad : tail = [] ∨ (t = [] ∧ 92 ∈ p)) (done : List Action) :
    ∃ a left, readSet B done (setCommand ++ (name ++ 32 :: 39 :: (doubled p ++ tail))) =
      some (a, left) ∧ a ≠ .set name (p ++ t) := by
  rw [readSet_quote B hspace]
  cases hq : quoted (doubled p ++ tail).length (doubled p ++ tail) with
  | none => exact ⟨_, _, rfl, nofun⟩
  | some o =>
    obtain ⟨out, r⟩ := o
    refine ⟨_, _, rfl, fun heq => ?_⟩
    have hvalue : out ++ (B.read done r).1 = p ++ t := (Action.set.inj heq).2
    obtain ⟨hclosed, rfl, hlen⟩ := quoted_agrees htail hq (hvalue ▸ List.prefix_append out _)
    rcases hbad with rfl | ⟨rfl, hslash⟩
    · cases hclosed
    · rw [B.read_word done [] rfl, List.append_nil, List.append_nil] at hvalue
      exact Nat.lt_irrefl _ (hvalue ▸ hlen hslash)

/-- Otherwise the line does something else first. -/
theorem readScript_setLine_bad {name value : Bytes} (hspace : 32 ∉ name) (hname : 10 ∉ name)
    (hbad : 92 ∈ value ∨ 10 ∈ value) (done : List Action) (rest : Bytes) :
    (readScript B done (setLine name value ++ 10 :: rest)).1.head? ≠ some (.set name value) := by
  by_cases hnewline : 10 ∈ value
  · obtain ⟨p, q, rfl, hp⟩ := List.eq_append_cons_of_mem hnewline
    obtain ⟨a, left, hread, hne⟩ :=
      readSet_other B (p := p) (t := 10 :: q) hspace (.inl rfl) (.inl rfl) done
    set line := setCommand ++ (name ++ 32 :: 39 :: (doubled p ++ [])) with hline
    have hplain : 10 ∉ line := by simp [hline, setCommand, mem_doubled, hname, hp]
    have hsplit : setLine name (p ++ 10 :: q) ++ 10 :: rest =
        line ++ 10 :: (doubled q ++ 39 :: 10 :: rest) := by
      simp [hline, setLine, doubled]
    rw [hsplit, readScript, newlineLines_line hplain, readLines_head B hread]
    exact fun h => hne (Option.some.inj h)
  · have hslash := hbad.resolve_right hnewline
    obtain ⟨a, left, hread, hne⟩ :=
      readSet_other B (t := []) hspace (.inr rfl) (.inr ⟨rfl, hslash⟩) done
    rw [List.append_nil] at hne
    rw [readScript, newlineLines_line (newline_notMem_setLine hname hnewline),
      readLines_head B (show readSet B done (setLine name value) = _ from hread)]
    exact fun h => hne (Option.some.inj h)

/-- A name and a value, as bytes. -/
abbrev Bind := Bytes × Bytes

def Bind.action (b : Bind) : Action := .set b.1 b.2

def setLines (binds : List Bind) : Bytes := joinLines (binds.map fun b => setLine b.1 b.2)

/-- A script of `\set` lines gives every variable its value and goes on as what follows it
exactly when no value has a backslash or a newline. -/
theorem readScript_setLines_iff {binds : List Bind} (hnames : ∀ b ∈ binds, 32 ∉ b.1 ∧ 10 ∉ b.1)
    (done : List Action) (rest : Bytes) :
    (readScript B done (setLines binds ++ rest) =
      let after := readScript B (done ++ binds.map Bind.action) rest
      (binds.map Bind.action ++ after.1, after.2)) ↔ ∀ b ∈ binds, 92 ∉ b.2 ∧ 10 ∉ b.2 := by
  induction binds generalizing done with
  | nil => simp [setLines, joinLines]
  | cons b binds ih =>
    obtain ⟨hspace, hname⟩ := hnames b List.mem_cons_self
    have hrest := ih (fun c hc => hnames c (List.mem_cons_of_mem b hc)) (done ++ [b.action])
    have hlines : setLines (b :: binds) ++ rest =
        setLine b.1 b.2 ++ 10 :: (setLines binds ++ rest) := by
      rw [setLines, List.map_cons, joinLines_cons, List.append_assoc]
      rfl
    rw [List.append_assoc, List.singleton_append] at hrest
    rw [hlines, List.forall_mem_cons, List.map_cons]
    by_cases hgood : 92 ∉ b.2 ∧ 10 ∉ b.2
    · rw [readScript_setLine B hspace hname hgood.1 hgood.2]
      simp only [hgood, not_false_iff, and_self, true_and]
      rw [← hrest]
      simp [Prod.ext_iff, Bind.action]
    · refine iff_of_false (fun h => ?_) fun h => hgood h.1
      have hbad : 92 ∈ b.2 ∨ 10 ∈ b.2 := by tauto
      refine readScript_setLine_bad B hspace hname hbad done (setLines binds ++ rest) ?_
      rw [h]
      rfl

end SpineFormal.Psql
