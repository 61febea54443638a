import Mathlib.Data.List.Basic
import SpineFormal.Base.RegexSub

/-!
# The matches of a pattern in a text of lines

A finder says which word, if any, a pattern takes at a place. From left to right its matches are
found with the places where they start. Where some characters stand in no match and cut a text
as its ends do, the matches of lines joined by such a character are those of the lines, and the
line of a match is found from the places where the lines start.
-/

namespace SpineFormal.Re

set_option autoImplicit false

/-- What a pattern takes, after the last character before a place and from the text behind it. -/
abbrev Finder := Option Char → List Char → Option (List Char)

namespace Finder

variable (find : Finder)

/-- `finditer` from a position, with the number of characters that the last match still covers. -/
def matchesFrom : Option Char → Nat → Nat → List Char → List (Nat × List Char)
  | _, _, _, [] => []
  | _, pos, skip + 1, c :: s => matchesFrom (some c) (pos + 1) skip s
  | prev, pos, 0, c :: s =>
    match find prev (c :: s) with
    | some w => (pos, w) :: matchesFrom (some c) (pos + 1) (w.length - 1) s
    | none => matchesFrom (some c) (pos + 1) 0 s

/-- `finditer`. -/
def matchesOf (s : List Char) : List (Nat × List Char) := find.matchesFrom none 0 0 s

/-- The words that are found. -/
def words (s : List Char) : List (List Char) := (find.matchesOf s).map Prod.snd

/-- A match takes characters of the text, and the separators cut a text as its ends do. -/
structure Separated (sep : Char → Bool) : Prop where
  takes : ∀ {prev : Option Char} {s w : List Char}, find prev s = some w → w ≠ [] ∧ w <+: s
  behind : ∀ {c : Char}, sep c = true → ∀ s, find (some c) s = find none s
  ahead : ∀ {c : Char}, sep c = true → ∀ prev t s, find prev (t ++ c :: s) = find prev t

theorem matchesFrom_add (prev : Option Char) (pos k skip : Nat) (s : List Char) :
    find.matchesFrom prev (pos + k) skip s =
      (find.matchesFrom prev pos skip s).map fun m => (m.1 + k, m.2) := by
  induction s generalizing prev pos skip with
  | nil => rfl
  | cons c s ih =>
    cases skip with
    | succ skip =>
      rw [matchesFrom, matchesFrom, Nat.add_right_comm, ih]
    | zero =>
      rw [matchesFrom, matchesFrom]
      cases find prev (c :: s) with
      | none =>
        dsimp only
        rw [Nat.add_right_comm, ih]
      | some w =>
        dsimp only
        rw [Nat.add_right_comm, ih, List.map_cons]

variable {find} {sep : Char → Bool}

namespace Separated

variable (h : find.Separated sep)
include h

theorem find_nil (prev : Option Char) : find prev [] = none := by
  cases hfind : find prev [] with
  | none => rfl
  | some w =>
    obtain ⟨hne, hprefix⟩ := h.takes hfind
    exact absurd (List.prefix_nil.mp hprefix) hne

theorem find_sep {c : Char} (hc : sep c = true) (prev : Option Char) (s : List Char) :
    find prev (c :: s) = none := by
  have hahead := h.ahead hc prev [] s
  rw [List.nil_append] at hahead
  rw [hahead, h.find_nil]

theorem matchesFrom_behind {c : Char} (hc : sep c = true) (pos : Nat) (s : List Char) :
    find.matchesFrom (some c) pos 0 s = find.matchesFrom none pos 0 s := by
  cases s with
  | nil => rfl
  | cons d s => rw [matchesFrom, matchesFrom, h.behind hc]

/-- A separator cuts the matches of a text in two. -/
theorem matchesFrom_append {c : Char} (hc : sep c = true) (prev : Option Char) (pos : Nat)
    {skip : Nat} {t : List Char} (hskip : skip ≤ t.length) (s : List Char) :
    find.matchesFrom prev pos skip (t ++ c :: s) =
      find.matchesFrom prev pos skip t ++ find.matchesFrom none (pos + t.length + 1) 0 s := by
  induction t generalizing prev pos skip with
  | nil =>
    obtain rfl : skip = 0 := Nat.le_zero.mp hskip
    have hstep : find.matchesFrom prev pos 0 (c :: s) = find.matchesFrom (some c) (pos + 1) 0 s := by
      rw [matchesFrom, h.find_sep hc]
    exact hstep.trans (h.matchesFrom_behind hc (pos + 1) s)
  | cons d t ih =>
    rw [List.length_cons] at hskip
    have hpos : pos + 1 + t.length + 1 = pos + (d :: t).length + 1 := by
      rw [List.length_cons]
      omega
    cases skip with
    | succ skip =>
      rw [List.cons_append, matchesFrom, matchesFrom, ih _ _ (Nat.le_of_succ_le_succ hskip), hpos]
    | zero =>
      have hahead : find prev (d :: (t ++ c :: s)) = find prev (d :: t) := h.ahead hc prev (d :: t) s
      rw [List.cons_append, matchesFrom, matchesFrom, hahead]
      cases hfind : find prev (d :: t) with
      | none =>
        dsimp only
        rw [ih _ _ (Nat.zero_le _), hpos]
      | some w =>
        dsimp only
        have hlength : w.length ≤ t.length + 1 := (h.takes hfind).2.length_le
        rw [ih _ _ (by omega), hpos, List.cons_append]

theorem words_append {c : Char} (hc : sep c = true) (t s : List Char) :
    find.words (t ++ c :: s) = find.words t ++ find.words s := by
  have hshift := matchesFrom_add find none 0 (t.length + 1) 0 s
  rw [words, matchesOf, h.matchesFrom_append hc none 0 (Nat.zero_le _), List.map_append,
    Nat.add_assoc, hshift, List.map_map]
  rfl

theorem words_cons {c : Char} (hc : sep c = true) (s : List Char) :
    find.words (c :: s) = find.words s :=
  h.words_append hc [] s

/-- Separators around a text add no match. -/
theorem words_around {a b : List Char} (ha : ∀ c ∈ a, sep c = true) (hb : ∀ c ∈ b, sep c = true)
    (t : List Char) : find.words (a ++ (t ++ b)) = find.words t := by
  have hblank {b : List Char} (hb : ∀ c ∈ b, sep c = true) : find.words b = [] := by
    induction b with
    | nil => rfl
    | cons c b ih =>
      obtain ⟨hc, hb⟩ := List.forall_mem_cons.mp hb
      rw [h.words_cons hc, ih hb]
  have hright : find.words (t ++ b) = find.words t := by
    cases b with
    | nil => rw [List.append_nil]
    | cons c b =>
      obtain ⟨hc, hb⟩ := List.forall_mem_cons.mp hb
      rw [h.words_append hc, hblank hb, List.append_nil]
  induction a with
  | nil => exact hright
  | cons c a ih =>
    obtain ⟨hc, ha⟩ := List.forall_mem_cons.mp ha
    rw [List.cons_append, h.words_cons hc, ih ha]

end Separated

/-- A match starts in the text. -/
theorem bound_of_mem {prev : Option Char} {pos skip : Nat} {s : List Char} {m : Nat × List Char}
    (hm : m ∈ find.matchesFrom prev pos skip s) : pos ≤ m.1 ∧ m.1 < pos + s.length := by
  induction s generalizing prev pos skip with
  | nil => cases hm
  | cons c s ih =>
    rw [List.length_cons]
    have hrest {prev : Option Char} {skip : Nat} (hm : m ∈ find.matchesFrom prev (pos + 1) skip s) :
        pos ≤ m.1 ∧ m.1 < pos + (s.length + 1) := by
      obtain ⟨hlow, hhigh⟩ := ih hm
      omega
    cases skip with
    | succ skip =>
      rw [matchesFrom] at hm
      exact hrest hm
    | zero =>
      rw [matchesFrom] at hm
      split at hm
      · rcases List.mem_cons.mp hm with rfl | hm
        · exact ⟨Nat.le_refl _, by dsimp only; omega⟩
        · exact hrest hm
      · exact hrest hm

/-! ## Whole occurrences -/

section
variable {At : Option Char → List Char → List Char → Prop}

/-- `At prev w t`: the pattern matches `w` between `prev` and `t`. The finder takes the longest
match at a place, and a match that starts in another one ends in it. -/
structure Longest (find : Finder) (At : Option Char → List Char → List Char → Prop) : Prop where
  sound : ∀ {prev : Option Char} {s w : List Char}, find prev s = some w →
    ∃ t, s = w ++ t ∧ At prev w t
  longest : ∀ {prev : Option Char} {w t : List Char}, At prev w t →
    ∃ v, find prev (w ++ t) = some v ∧ w.length ≤ v.length
  takes : ∀ {prev : Option Char} {w t : List Char}, At prev w t → w ≠ []
  nested : ∀ {prev : Option Char} {w t a v u : List Char}, At prev w t →
    w ++ t = a ++ (v ++ u) → a ≠ [] → a.length < w.length → At (lastOr prev a) v u →
    a.length + v.length ≤ w.length

/-- A place in a text where the pattern matches. -/
def Occurs (At : Option Char → List Char → List Char → Prop) (text : List Char)
    (m : Nat × List Char) : Prop :=
  ∃ a b, text = a ++ (m.2 ++ b) ∧ a.length = m.1 ∧ At (lastOr none a) m.2 b

/-- It is not part of a longer one. -/
def Whole (At : Option Char → List Char → List Char → Prop) (text : List Char)
    (m : Nat × List Char) : Prop :=
  Occurs At text m ∧ ∀ n, Occurs At text n → n.1 ≤ m.1 → m.1 + m.2.length ≤ n.1 + n.2.length → n = m

/-- No occurrence from before a place reaches over it. -/
def Clear (At : Option Char → List Char → List Char → Prop) (text : List Char) (pos : Nat) : Prop :=
  ∀ n, Occurs At text n → n.1 < pos → n.1 + n.2.length ≤ pos

theorem Occurs.at_place {text a s : List Char} {n : Nat × List Char} (h : Occurs At text n)
    (htext : text = a ++ s) (hle : a.length ≤ n.1) :
    ∃ x b, s = x ++ (n.2 ++ b) ∧ a.length + x.length = n.1 ∧ At (lastOr none (a ++ x)) n.2 b := by
  obtain ⟨a', b, heq, hlength, hat⟩ := h
  obtain ⟨x, rfl⟩ : ∃ x, a' = a ++ x := by
    refine (List.prefix_of_prefix_length_le ⟨s, htext.symm⟩ ⟨_, heq.symm⟩ (by omega)).imp ?_
    exact fun x hx => hx.symm
  refine ⟨x, b, ?_, by rw [← hlength, List.length_append], hat⟩
  rw [htext, List.append_assoc] at heq
  exact List.append_cancel_left heq

namespace Longest

variable (h : Longest find At)
include h

theorem longest_at {text a s : List Char} (htext : text = a ++ s) {n : Nat × List Char}
    (hn : Occurs At text n) (hplace : n.1 = a.length) :
    ∃ v, find (lastOr none a) s = some v ∧ n.2.length ≤ v.length := by
  obtain ⟨x, b, rfl, hx, hat⟩ := hn.at_place htext (Nat.le_of_eq hplace.symm)
  obtain rfl := List.eq_nil_of_length_eq_zero (show x.length = 0 by omega)
  rw [List.append_nil] at hat
  exact h.longest hat

/-- From a place over which nothing reaches, the matches are the whole occurrences behind it. -/
theorem mem_matchesFrom_iff {text a s : List Char} (htext : text = a ++ s) {skip : Nat}
    (hskip : skip ≤ s.length) (hclear : Clear At text (a.length + skip)) (m : Nat × List Char) :
    m ∈ find.matchesFrom (lastOr none a) a.length skip s ↔
      Whole At text m ∧ a.length + skip ≤ m.1 := by
  induction s generalizing a skip with
  | nil =>
    refine ⟨fun hm => absurd hm List.not_mem_nil, fun ⟨hwhole, hle⟩ => ?_⟩
    obtain ⟨x, b, hs, -, hat⟩ := hwhole.1.at_place htext (by omega)
    have hnil := (List.append_eq_nil_iff.mp (List.append_eq_nil_iff.mp hs.symm).2).1
    exact absurd hnil (h.takes hat)
  | cons c s ih =>
    have htext' : text = (a ++ [c]) ++ s := by simpa using htext
    have hlength : (a ++ [c]).length = a.length + 1 := by simp
    have hlast : lastOr none (a ++ [c]) = some c := by rw [lastOr_append, lastOr_singleton]
    have hrest {skip : Nat} (hskip : skip ≤ s.length) (hclear : Clear At text (a.length + 1 + skip)) :
        m ∈ find.matchesFrom (some c) (a.length + 1) skip s ↔
          Whole At text m ∧ a.length + 1 + skip ≤ m.1 := by
      have hiff := ih htext' hskip (by rwa [hlength])
      rwa [hlast, hlength] at hiff
    cases skip with
    | succ skip =>
      have hpos : a.length + (skip + 1) = a.length + 1 + skip := by omega
      rw [hpos] at hclear ⊢
      exact hrest (Nat.le_of_succ_le_succ hskip) hclear
    | zero =>
      rw [Nat.add_zero] at hclear ⊢
      cases hfind : find (lastOr none a) (c :: s) with
      | none =>
        have hfree {n : Nat × List Char} (hn : Occurs At text n) : n.1 ≠ a.length := by
          intro hplace
          obtain ⟨v, hv, -⟩ := h.longest_at htext hn hplace
          rw [hfind] at hv
          cases hv
        have hclear' : Clear At text (a.length + 1 + 0) := by
          intro n hn hlt
          have hne := hfree hn
          have hle := hclear n hn (by omega)
          omega
        rw [matchesFrom, hfind]
        dsimp only
        rw [hrest (Nat.zero_le _) hclear']
        refine and_congr_right fun hwhole => ?_
        have hne := hfree hwhole.1
        omega
      | some w =>
        obtain ⟨t, hs, hat⟩ := h.sound hfind
        have hpos : 0 < w.length := List.length_pos_iff.mpr (h.takes hat)
        have hlen : w.length ≤ s.length + 1 := by
          have heq := congrArg List.length hs
          rw [List.length_cons, List.length_append] at heq
          omega
        have hocc : Occurs At text (a.length, w) := ⟨a, t, by rw [htext, hs], rfl, hat⟩
        have hlongest {n : Nat × List Char} (hn : Occurs At text n) (hplace : n.1 = a.length) :
            n.2.length ≤ w.length ∧ (n.2.length = w.length → n = (a.length, w)) := by
          obtain ⟨v, hv, hle⟩ := h.longest_at htext hn hplace
          obtain rfl := Option.some.inj (hfind.symm.trans hv)
          refine ⟨hle, fun heq => Prod.ext hplace ?_⟩
          obtain ⟨x, b, hs', hx, -⟩ := hn.at_place htext (Nat.le_of_eq hplace.symm)
          obtain rfl := List.eq_nil_of_length_eq_zero (show x.length = 0 by omega)
          rw [List.nil_append] at hs'
          exact (List.append_inj (hs'.symm.trans hs) heq).1
        have hnested {n : Nat × List Char} (hn : Occurs At text n) (hlt : a.length < n.1)
            (hin : n.1 < a.length + w.length) : n.1 + n.2.length ≤ a.length + w.length := by
          obtain ⟨x, b, hs', hx, hat'⟩ := hn.at_place htext (Nat.le_of_lt hlt)
          have hne : x ≠ [] := by
            rintro rfl
            exact absurd hx (by simp; omega)
          rw [lastOr_append] at hat'
          have hle := h.nested hat (hs.symm.trans hs') hne (by omega) hat'
          omega
        have hclear' : Clear At text (a.length + 1 + (w.length - 1)) := by
          intro n hn hlt
          rcases Nat.lt_trichotomy n.1 a.length with hn' | hn' | hn'
          · have hle := hclear n hn hn'
            omega
          · have hle := (hlongest hn hn').1
            omega
          · have hle := hnested hn hn' (by omega)
            omega
        have hwhole : Whole At text (a.length, w) := by
          refine ⟨hocc, fun n hn hle hcover => ?_⟩
          dsimp only at hle hcover
          have hplace : n.1 = a.length := by
            by_contra hne
            have hend := hclear n hn (by omega)
            omega
          obtain ⟨hle', heq⟩ := hlongest hn hplace
          exact heq (by omega)
        rw [matchesFrom, hfind]
        dsimp only
        rw [List.mem_cons, hrest (by omega) hclear']
        constructor
        · rintro (rfl | ⟨hm, hle⟩)
          · exact ⟨hwhole, Nat.le_refl _⟩
          · exact ⟨hm, by omega⟩
        · rintro ⟨hm, hle⟩
          rcases Nat.lt_or_ge m.1 (a.length + w.length) with hin | hout
          · -- what starts in the match is part of it
            have hend : m.1 + m.2.length ≤ a.length + w.length := by
              rcases Nat.eq_or_lt_of_le hle with heq | hlt
              · have hle' := (hlongest hm.1 heq.symm).1
                omega
              · exact hnested hm.1 hlt hin
            exact .inl (hm.2 _ hocc hle hend).symm
          · exact .inr ⟨hm, by omega⟩

/-- `finditer` finds the whole occurrences. -/
theorem mem_matchesOf_iff (text : List Char) (m : Nat × List Char) :
    m ∈ find.matchesOf text ↔ Whole At text m := by
  have hclear : Clear At text (([] : List Char).length + 0) := fun n _ hlt =>
    absurd hlt (Nat.not_lt_zero _)
  have hiff := h.mem_matchesFrom_iff (List.nil_append text).symm (Nat.zero_le _) hclear m
  exact hiff.trans (and_iff_left (Nat.zero_le _))

theorem mem_words_iff (text w : List Char) :
    w ∈ find.words text ↔ ∃ pos, Whole At text (pos, w) := by
  rw [words, List.mem_map]
  constructor
  · rintro ⟨m, hm, rfl⟩
    exact ⟨m.1, (h.mem_matchesOf_iff text m).mp hm⟩
  · rintro ⟨pos, hwhole⟩
    exact ⟨(pos, w), (h.mem_matchesOf_iff text _).mpr hwhole, rfl⟩

end Longest

end

/-! ## Lines -/

/-- The places behind the newlines of a text. -/
def startsFrom : Nat → List Char → List Nat
  | _, [] => []
  | pos, c :: s =>
    if c = '\n' then (pos + 1) :: startsFrom (pos + 1) s else startsFrom (pos + 1) s

/-- The words of each line, with the number of the line. -/
def numberedWords (find : Finder) : Nat → List (List Char) → List (Nat × List Char)
  | _, [] => []
  | n, line :: lines =>
    ((find.words line).map fun w => (n, w)) ++ numberedWords find (n + 1) lines

theorem mem_numberedWords {n : Nat} {lines : List (List Char)} {m : Nat × List Char} :
    m ∈ find.numberedWords n lines ↔ ∃ (i : Nat) (line : List Char),
      lines[i]? = some line ∧ m.1 = n + i ∧ m.2 ∈ find.words line := by
  induction lines generalizing n with
  | nil => simp [numberedWords]
  | cons line lines ih =>
    rw [numberedWords, List.mem_append, ih, List.mem_map]
    constructor
    · rintro (⟨w, hw, rfl⟩ | ⟨i, other, hget, hm, hw⟩)
      · exact ⟨0, line, rfl, rfl, hw⟩
      · exact ⟨i + 1, other, hget, by omega, hw⟩
    · rintro ⟨i, other, hget, hm, hw⟩
      cases i with
      | zero =>
        obtain rfl := Option.some.inj hget
        exact .inl ⟨m.2, hw, Prod.ext hm.symm rfl⟩
      | succ i => exact .inr ⟨i, other, hget, by omega, hw⟩

theorem startsFrom_line {line : List Char} (h : '\n' ∉ line) (pos : Nat) (s : List Char) :
    startsFrom pos (line ++ s) = startsFrom (pos + line.length) s := by
  induction line generalizing pos with
  | nil => rfl
  | cons c line ih =>
    obtain ⟨hc, hline⟩ := List.ne_and_not_mem_of_not_mem_cons h
    rw [List.cons_append, startsFrom, if_neg (Ne.symm hc), ih hline, List.length_cons,
      Nat.add_assoc, Nat.add_comm 1]

theorem lt_of_mem_startsFrom {pos n : Nat} {s : List Char} (h : n ∈ startsFrom pos s) :
    pos < n := by
  induction s generalizing pos with
  | nil => cases h
  | cons c s ih =>
    rw [startsFrom] at h
    split_ifs at h
    · rcases List.mem_cons.mp h with rfl | h
      · exact Nat.lt_succ_self pos
      · exact Nat.lt_of_succ_lt (ih h)
    · exact Nat.lt_of_succ_lt (ih h)

theorem pairwise_startsFrom (pos : Nat) (s : List Char) : (startsFrom pos s).Pairwise (· < ·) := by
  induction s generalizing pos with
  | nil => exact List.Pairwise.nil
  | cons c s ih =>
    rw [startsFrom]
    split_ifs
    · exact List.pairwise_cons.mpr ⟨fun n hn => lt_of_mem_startsFrom hn, ih _⟩
    · exact ih _

theorem words_eq (pos : Nat) (s : List Char) :
    (find.matchesFrom none pos 0 s).map Prod.snd = find.words s := by
  have hshift := matchesFrom_add find none 0 pos 0 s
  rw [Nat.zero_add] at hshift
  rw [hshift, List.map_map]
  rfl

/-- The line of a match is the number of starts up to it. -/
theorem Separated.map_matchesFrom_lines (h : find.Separated sep) (hsep : sep '\n' = true)
    {lines : List (List Char)} (hlines : ∀ line ∈ lines, '\n' ∉ line) (pos k : Nat) :
    ((find.matchesFrom none pos 0 (['\n'].intercalate lines)).map fun m =>
        (k + (pos :: startsFrom pos (['\n'].intercalate lines)).countP (· ≤ m.1), m.2)) =
      numberedWords find (k + 1) lines := by
  induction lines generalizing pos k with
  | nil => rfl
  | cons line rest ih =>
    obtain ⟨hline, hrest⟩ := List.forall_mem_cons.mp hlines
    -- Of the starts only the first is at or before a match in the first line.
    have hfirst {later : List Nat} (hlater : ∀ n ∈ later, pos + line.length < n) :
        ((find.matchesFrom none pos 0 line).map fun m =>
            (k + (pos :: later).countP (· ≤ m.1), m.2)) =
          (find.words line).map fun w => (k + 1, w) := by
      rw [← words_eq pos line, List.map_map]
      refine List.map_congr_left fun m hm => ?_
      obtain ⟨hlow, hhigh⟩ := bound_of_mem hm
      have hcount : later.countP (· ≤ m.1) = 0 := by
        refine List.countP_eq_zero.mpr fun n hn => ?_
        have hn := hlater n hn
        simp only [decide_eq_true_iff]
        omega
      have hpos : decide (pos ≤ m.1) = true := decide_eq_true hlow
      rw [List.countP_cons_of_pos (p := fun n => decide (n ≤ m.1)) hpos, hcount]
      rfl
    cases rest with
    | nil =>
      have hstarts := startsFrom_line hline pos []
      rw [List.append_nil] at hstarts
      rw [List.intercalate_singleton, hstarts, numberedWords, numberedWords, List.append_nil]
      exact hfirst (fun n hn => absurd hn List.not_mem_nil)
    | cons next rest =>
      have hjoin : ['\n'].intercalate (line :: next :: rest) =
          line ++ '\n' :: ['\n'].intercalate (next :: rest) := by
        rw [List.intercalate_cons_cons, List.append_assoc, List.singleton_append]
      generalize hs : ['\n'].intercalate (next :: rest) = s at hjoin ih
      have hstarts : startsFrom pos (line ++ '\n' :: s) =
          (pos + line.length + 1) :: startsFrom (pos + line.length + 1) s := by
        rw [startsFrom_line hline, startsFrom, if_pos rfl]
      rw [hjoin, h.matchesFrom_append hsep none pos (Nat.zero_le _), hstarts, List.map_append,
        numberedWords]
      congr 1
      · refine hfirst fun n hn => ?_
        rcases List.mem_cons.mp hn with rfl | hn
        · exact Nat.lt_succ_self _
        · exact Nat.lt_of_succ_lt (lt_of_mem_startsFrom hn)
      · rw [← ih hrest (pos + line.length + 1) (k + 1)]
        refine List.map_congr_left fun m hm => ?_
        have hpos : decide (pos ≤ m.1) = true := by
          have hlow := (bound_of_mem hm).1
          exact decide_eq_true (by omega)
        rw [List.countP_cons_of_pos (p := fun n => decide (n ≤ m.1)) hpos, Nat.add_right_comm k 1]
        rfl

end Finder

end SpineFormal.Re
