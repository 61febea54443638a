import Mathlib.Data.List.GetD
import SpineFormal.Base.Finditer
import SpineFormal.Build.FilesTouched

/-!
# Spine identifiers in a text

The resolver finds the identifiers of a text with one pattern, longest form first, and reports
each with the line it starts on, once for each line. The line comes from a search in the table of
the places where the lines start.
-/

namespace SpineFormal.Kg

open Re
open Build (TextTables)
set_option autoImplicit false

/-- Python's classes: a digit is a word character, and white space is none. -/
structure WordTables extends TextTables where
  word_of_digit : ∀ c, digit c = true → word c = true
  word_of_space : ∀ c, pySpace c = true → word c = false

variable (u : WordTables)

/-! ## The forms -/

/-- The kinds of identifiers, in the order of the alternatives. -/
inductive IdKind where
  | reqInit
  | story
  | epic
  | init
  | adr
  | epicFr
  | fr
  deriving DecidableEq

namespace IdKind

def all : List IdKind := [reqInit, story, epic, init, adr, epicFr, fr]

def text : IdKind → String
  | reqInit => "req_init"
  | story => "story"
  | epic => "epic"
  | init => "init"
  | adr => "adr"
  | epicFr => "epic_fr"
  | fr => "fr"

/-- `_KIND_TO_TYPE`. -/
def targetType : IdKind → String
  | init => "Initiative"
  | epic => "Epic"
  | story => "Story"
  | reqInit | adr => "Document"
  | fr | epicFr => "Requirement"

def head : IdKind → List Char
  | reqInit => "REQ-INIT-".toList
  | story => "STORY-".toList
  | epic => "EPIC-".toList
  | init => "INIT-".toList
  | adr => "ADR-".toList
  | epicFr | fr => "FR-".toList

/-- How many dots stand between its numbers. -/
def dots : IdKind → Nat
  | story => 2
  | epic | epicFr => 1
  | reqInit | init | adr | fr => 0

end IdKind

def numbers : Nat → Regex
  | 0 => atLeast 1 u.digit
  | n + 1 => .seq (atLeast 1 u.digit) (.seq (lit ['.']) (numbers n))

def form (k : IdKind) : Regex := .seq (lit k.head) (numbers u k.dots)

/-- `\b` after a word. -/
def closes (w t : List Char) : Bool := (Look.boundary u.word).holds w.getLast? t.head?

/-- An identifier of a kind between word boundaries. -/
structure IdAt (prev : Option Char) (w t : List Char) : Prop where
  opens : (Look.boundary u.word).holds prev (w ++ t).head? = true
  spells : ∃ k, Spells (form u k) w
  closes : closes u w t = true

def kindAt (k : IdKind) (s : List Char) : Option (List Char) :=
  (form u k).first s fun w t => if closes u w t then some w else none

/-- `_COMBINED` at a place. -/
def spineId : Finder := fun prev s =>
  if (Look.boundary u.word).holds prev s.head? then IdKind.all.findSome? fun k => kindAt u k s
  else none

/-! ## What the pattern takes -/

/-- The numbers of an identifier. -/
def Numbers : Nat → List Char → Prop
  | 0, v => v ≠ [] ∧ ∀ c ∈ v, u.digit c = true
  | n + 1, v => ∃ d x, v = d ++ '.' :: x ∧ (d ≠ [] ∧ ∀ c ∈ d, u.digit c = true) ∧ Numbers n x

variable {u}

theorem spells_numbers {n : Nat} {v : List Char} : Spells (numbers u n) v ↔ Numbers u n v := by
  induction n generalizing v with
  | zero => exact spells_some_iff
  | succ n ih =>
    constructor
    · intro h
      cases h with
      | seq hd hx =>
        cases hx with
        | seq hdot hx =>
          obtain rfl := spells_lit.mp hdot
          exact ⟨_, _, rfl, spells_some_iff.mp hd, ih.mp hx⟩
    · rintro ⟨d, x, rfl, hd, hx⟩
      exact .seq (spells_some_iff.mpr hd) (.seq (v := ['.']) (spells_lit.mpr rfl) (ih.mpr hx))

theorem spells_form {k : IdKind} {w : List Char} :
    Spells (form u k) w ↔ ∃ v, w = k.head ++ v ∧ Numbers u k.dots v := by
  constructor
  · intro h
    cases h with
    | seq hhead hv =>
      obtain rfl := spells_lit.mp hhead
      exact ⟨_, rfl, spells_numbers.mp hv⟩
  · rintro ⟨v, rfl, hv⟩
    exact .seq (spells_lit.mpr rfl) (spells_numbers.mpr hv)

/-- The numbers end with a digit. -/
theorem Numbers.getLast {n : Nat} {v : List Char} (h : Numbers u n v) :
    ∃ c, u.digit c = true ∧ ∀ a : List Char, (a ++ v).getLast? = some c := by
  induction n generalizing v with
  | zero =>
    refine ⟨v.getLast h.1, h.2 _ (List.getLast_mem h.1), fun a => ?_⟩
    rw [List.getLast?_append_of_ne_nil a h.1, List.getLast?_eq_some_getLast h.1]
  | succ n ih =>
    obtain ⟨d, x, rfl, -, hx⟩ := h
    obtain ⟨c, hc, hlast⟩ := ih hx
    refine ⟨c, hc, fun a => ?_⟩
    have heq : a ++ (d ++ '.' :: x) = (a ++ d ++ ['.']) ++ x := by simp
    rw [heq, hlast]

/-- An identifier closes where no word character follows. -/
theorem closes_iff {n : Nat} {a v t : List Char} (h : Numbers u n v) :
    closes u (a ++ v) t = true ↔ ∀ c ∈ t.head?, u.word c = false := by
  obtain ⟨c, hc, hlast⟩ := h.getLast
  rw [closes, hlast a, Look.holds, Option.any_some, u.word_of_digit c hc]
  cases t with
  | nil => simp
  | cons d t => simp

theorem digit_dot : u.digit '.' = false := u.digit_ascii '.' (by decide)

theorem not_digit {t : List Char} (ht : ∀ c ∈ t.head?, u.word c = false) :
    ∀ c ∈ t.head?, u.digit c = false := by
  intro c hc
  by_contra hdigit
  have hword := u.word_of_digit c (by simpa using hdigit)
  rw [ht c hc] at hword
  cases hword

/-- The numbers of an identifier reach as far as they can. -/
theorem Numbers.unique {n : Nat} {v v' t t' : List Char} (h : Numbers u n v)
    (h' : Numbers u n v') (ht : ∀ c ∈ t.head?, u.word c = false)
    (ht' : ∀ c ∈ t'.head?, u.word c = false) (heq : v ++ t = v' ++ t') : v = v' := by
  induction n generalizing v v' with
  | zero =>
    obtain ⟨z, hz, -⟩ := run_within heq h'.2 (not_digit ht)
    obtain ⟨z', hz', -⟩ := run_within heq.symm h.2 (not_digit ht')
    have hlength := congrArg List.length hz
    have hlength' := congrArg List.length hz'
    rw [List.length_append] at hlength hlength'
    obtain rfl := List.eq_nil_of_length_eq_zero (show z.length = 0 by omega)
    rw [hz, List.append_nil]
  | succ n ih =>
    obtain ⟨d, x, rfl, hd, hx⟩ := h
    obtain ⟨d', x', rfl, hd', hx'⟩ := h'
    have hdot {d : List Char} (hd : ∀ c ∈ d, u.digit c = true) : '.' ∉ d := by
      intro hmem
      have hdigit := hd '.' hmem
      rw [digit_dot] at hdigit
      cases hdigit
    rw [List.append_assoc, List.append_assoc, List.cons_append, List.cons_append] at heq
    obtain ⟨rfl, hrest⟩ := append_cons_inj_of_notMem_left (hdot hd.2) (hdot hd'.2) heq
    rw [ih hx hx' hrest]

/-- One number is shorter than two. -/
theorem Numbers.length_le {v v' t t' : List Char} (h : Numbers u 0 v) (h' : Numbers u 1 v')
    (heq : v ++ t = v' ++ t') : v.length ≤ v'.length := by
  obtain ⟨d, x, rfl, -, -⟩ := h'
  rw [List.append_assoc, List.cons_append] at heq
  have hdot : ∀ c ∈ ('.' :: (x ++ t')).head?, u.digit c = false := by
    intro c hc
    obtain rfl := Option.some.inj hc
    exact digit_dot
  obtain ⟨z, rfl, -⟩ := run_within heq.symm h.2 hdot
  simp only [List.length_append]
  omega

theorem closes_spells {k : IdKind} {w t : List Char} (hw : Spells (form u k) w)
    (h : closes u w t = true) : ∀ c ∈ t.head?, u.word c = false := by
  obtain ⟨v, rfl, hv⟩ := spells_form.mp hw
  exact (closes_iff hv).mp h

/-- At a place there is at most one identifier of a kind. -/
theorem spells_unique {k : IdKind} {w w' t t' : List Char} (hw : Spells (form u k) w)
    (hw' : Spells (form u k) w') (ht : closes u w t = true) (ht' : closes u w' t' = true)
    (heq : w ++ t = w' ++ t') : w = w' := by
  have hhead := closes_spells hw ht
  have hhead' := closes_spells hw' ht'
  obtain ⟨v, rfl, hv⟩ := spells_form.mp hw
  obtain ⟨v', rfl, hv'⟩ := spells_form.mp hw'
  rw [List.append_assoc, List.append_assoc] at heq
  rw [hv.unique hv' hhead hhead' (List.append_cancel_left heq)]

theorem kindAt_eq_some_iff {k : IdKind} {s w : List Char} :
    kindAt u k s = some w ↔ ∃ t, s = w ++ t ∧ Spells (form u k) w ∧ closes u w t = true := by
  have hsound {w : List Char} (h : kindAt u k s = some w) :
      ∃ t, s = w ++ t ∧ Spells (form u k) w ∧ closes u w t = true := by
    obtain ⟨v, t, hs, hv, hk⟩ := first_eq_some h
    split_ifs at hk with hcloses
    obtain rfl := Option.some.inj hk
    exact ⟨t, hs, hv, hcloses⟩
  refine ⟨hsound, ?_⟩
  rintro ⟨t, hs, hw, hcloses⟩
  have hsome : (kindAt u k s).isSome = true := by
    refine isSome_first hs hw ?_
    rw [if_pos hcloses]
    rfl
  obtain ⟨v, hv⟩ := Option.isSome_iff_exists.mp hsome
  obtain ⟨t', hs', hv', hcloses'⟩ := hsound hv
  rw [hv, spells_unique hv' hw hcloses' hcloses (hs'.symm.trans hs)]

/-! ## Heads -/

theorem head_eq_of_prefix {k k' : IdKind} {s : List Char} (h : k.head <+: s) (h' : k'.head <+: s) :
    k.head = k'.head := by
  have hall : ∀ k k' : IdKind, k.head <+: k'.head → k.head = k'.head := by
    intro k k'
    cases k <;> cases k' <;> decide
  rcases Nat.le_total k.head.length k'.head.length with hle | hle
  · exact hall k k' (List.prefix_of_prefix_length_le h h' hle)
  · exact (hall k' k (List.prefix_of_prefix_length_le h' h hle)).symm

theorem eq_of_head_eq {k k' : IdKind} (h : k.head = k'.head) :
    k = k' ∨ k = .epicFr ∧ k' = .fr ∨ k = .fr ∧ k' = .epicFr := by
  revert h
  cases k <;> cases k' <;> decide

theorem head_prefix {k : IdKind} {w t : List Char} (hw : Spells (form u k) w) :
    k.head <+: w ++ t := by
  obtain ⟨v, rfl, -⟩ := spells_form.mp hw
  exact ⟨v ++ t, (List.append_assoc ..).symm⟩

/-- The first kind that is found is the longest: of two forms with one head the one with two
numbers comes first. -/
theorem length_le_of_findSome {k : IdKind} {s w v : List Char} (hw : kindAt u k s = some w)
    (hv : IdKind.all.findSome? (fun k => kindAt u k s) = some v) : w.length ≤ v.length := by
  obtain ⟨before, k₀, later, hall, hk₀, hnone⟩ := List.findSome?_eq_some_iff.mp hv
  obtain ⟨t, hs, hspells, hcloses⟩ := kindAt_eq_some_iff.mp hw
  obtain ⟨t₀, hs₀, hspells₀, hcloses₀⟩ := kindAt_eq_some_iff.mp hk₀
  have hhead : k.head = k₀.head := by
    refine head_eq_of_prefix (s := s) ?_ ?_
    · rw [hs]
      exact head_prefix hspells
    · rw [hs₀]
      exact head_prefix hspells₀
  rcases eq_of_head_eq hhead with rfl | ⟨rfl, rfl⟩ | ⟨rfl, rfl⟩
  · rw [hw] at hk₀
    rw [Option.some.inj hk₀]
  · -- The longer form comes first, so it would have been found.
    have horder : IdKind.all.Pairwise fun a b => ¬ (a = .fr ∧ b = .epicFr) := by decide
    have hmem : IdKind.epicFr ∈ IdKind.all := by decide
    rw [hall] at horder hmem
    have hlater := (List.pairwise_cons.mp (List.pairwise_append.mp horder).2.1).1
    rcases List.mem_append.mp hmem with hmem | hmem
    · rw [hnone _ hmem] at hw
      cases hw
    · rcases List.mem_cons.mp hmem with heq | hmem
      · cases heq
      · exact absurd ⟨rfl, rfl⟩ (hlater _ hmem)
  · obtain ⟨x, rfl, hx⟩ := spells_form.mp hspells
    obtain ⟨y, rfl, hy⟩ := spells_form.mp hspells₀
    rw [hs, List.append_assoc, List.append_assoc] at hs₀
    have hle := hx.length_le hy (List.append_cancel_left hs₀)
    rw [List.length_append, List.length_append, hhead]
    omega

/-! ## The finder -/

def asciiWord (c : Char) : Bool := c.isAlphanum || c == '_'

/-- The letter with which an identifier begins stands in no number. -/
structure Letter (c : Char) : Prop where
  ascii : c.toNat < 128
  word : asciiWord c = true
  digit : c.isDigit = false
  dot : c ≠ '.'

theorem head_letter (k : IdKind) : ∃ c s, k.head = c :: s ∧ Letter c := by
  cases k <;> exact ⟨_, _, rfl, by decide, by decide, by decide, by decide⟩

theorem head_ascii (k : IdKind) : ∀ c ∈ k.head, c.toNat < 128 := by
  cases k <;> exact Numerals.forall_mem_of_all (by decide)

/-- Behind the first character of a head there is no other head but `INIT-`. -/
theorem inner_head {k : IdKind} {n : Nat} (hpos : 0 < n) (hlt : n < k.head.length)
    (h : ((k.head.take n).getLast?).any asciiWord = false) : k = .reqInit ∧ n = 4 := by
  have hall : ∀ k : IdKind, ∀ n < k.head.length, 0 < n →
      ((k.head.take n).getLast?).any asciiWord = false → k = .reqInit ∧ n = 4 := by
    intro k
    cases k <;> decide
  exact hall k n hlt hpos h

theorem Numbers.notMem {n : Nat} {v : List Char} (h : Numbers u n v) {c : Char} (hc : Letter c) :
    c ∉ v := by
  have hdigits {d : List Char} (hd : ∀ c ∈ d, u.digit c = true) : c ∉ d := by
    intro hmem
    have hdigit := hd c hmem
    rw [u.digit_ascii c hc.ascii, hc.digit] at hdigit
    cases hdigit
  induction n generalizing v with
  | zero => exact hdigits h.2
  | succ n ih =>
    obtain ⟨d, x, rfl, hd, hx⟩ := h
    rw [List.mem_append, List.mem_cons]
    rintro (hmem | rfl | hmem)
    · exact hdigits hd.2 hmem
    · exact hc.dot rfl
    · exact ih hx hmem

/-- A head that starts in an identifier starts in its head. -/
theorem length_lt_head {k : IdKind} {v t a s : List Char} {c : Char} (hc : Letter c)
    (hv : Numbers u k.dots v) (heq : k.head ++ v ++ t = a ++ c :: s)
    (hlt : a.length < (k.head ++ v).length) : a.length < k.head.length := by
  by_contra hge
  obtain ⟨b, rfl⟩ : k.head <+: a :=
    List.prefix_of_prefix_length_le ⟨v ++ t, (List.append_assoc ..).symm⟩ ⟨c :: s, heq.symm⟩
      (Nat.le_of_not_lt hge)
  rw [List.append_assoc, List.append_assoc] at heq
  have hrest : v ++ t = b ++ c :: s := List.append_cancel_left heq
  have hshort : (b ++ [c]).length ≤ v.length := by
    simp only [List.length_append, List.length_singleton] at hlt ⊢
    omega
  obtain ⟨z, hz⟩ : b ++ [c] <+: v :=
    List.prefix_of_prefix_length_le ⟨s, by rw [List.append_assoc]; exact hrest.symm⟩ ⟨t, rfl⟩ hshort
  refine hv.notMem hc ?_
  rw [← hz]
  simp

/-- Between two identifiers of which one starts in the other: they are `REQ-INIT-` and `INIT-`
with one number. -/
theorem nested_length {k k' : IdKind} {v v' t r a : List Char} (hv : Numbers u k.dots v)
    (hv' : Numbers u k'.dots v') (ht : ∀ c ∈ t.head?, u.word c = false)
    (hr : ∀ c ∈ r.head?, u.word c = false) (heq : k.head ++ v ++ t = a ++ (k'.head ++ v' ++ r))
    (hne : a ≠ []) (hlt : a.length < (k.head ++ v).length)
    (hlast : a.getLast?.any u.word = false) :
    a.length + (k'.head ++ v').length ≤ (k.head ++ v).length := by
  obtain ⟨c, s, hhead, hc⟩ := head_letter k'
  have hin : a.length < k.head.length := by
    refine length_lt_head (s := s ++ v' ++ r) (t := t) hc hv ?_ hlt
    rw [heq, hhead]
    rfl
  have htake : a = k.head.take a.length := by
    have hprefix : a <+: k.head := List.prefix_of_prefix_length_le ⟨_, heq.symm⟩
      ⟨v ++ t, (List.append_assoc ..).symm⟩ (Nat.le_of_lt hin)
    exact List.prefix_iff_eq_take.mp hprefix
  have hascii : a.getLast?.any asciiWord = false := by
    rw [← hlast]
    cases hget : a.getLast? with
    | none => rfl
    | some y =>
      have hmem : y ∈ k.head := by
        have hy := List.mem_of_getLast? hget
        rw [htake] at hy
        exact List.mem_of_mem_take hy
      exact (u.word_ascii y (head_ascii k y hmem)).symm
  rw [htake] at hascii
  obtain ⟨rfl, hfour⟩ := inner_head (List.length_pos_iff.mpr hne) hin hascii
  have ha : a = "REQ-".toList := by
    rw [htake, hfour]
    rfl
  have hsplit : IdKind.reqInit.head = a ++ IdKind.init.head := by
    rw [ha]
    rfl
  rw [hsplit, List.append_assoc, List.append_assoc, List.append_assoc] at heq
  have hrest : IdKind.init.head ++ (v ++ t) = k'.head ++ (v' ++ r) := List.append_cancel_left heq
  have hsame : IdKind.init.head = k'.head := head_eq_of_prefix ⟨_, rfl⟩ ⟨_, hrest.symm⟩
  obtain rfl : .init = k' := by
    rcases eq_of_head_eq hsame with h | ⟨h, -⟩ | ⟨h, -⟩
    · exact h
    · cases h
    · cases h
  have hnumbers := Numbers.unique (n := 0) hv hv' ht hr (List.append_cancel_left hrest)
  rw [hnumbers, hsplit]
  simp only [List.length_append]
  omega

theorem spineId_longest : (spineId u).Longest (IdAt u) where
  sound := by
    intro prev s w h
    unfold spineId at h
    split_ifs at h with hopens
    obtain ⟨k, -, hk⟩ := List.exists_of_findSome?_eq_some h
    obtain ⟨t, rfl, hspells, hcloses⟩ := kindAt_eq_some_iff.mp hk
    exact ⟨t, rfl, hopens, ⟨k, hspells⟩, hcloses⟩
  longest := by
    intro prev w t hat
    obtain ⟨k, hspells⟩ := hat.spells
    have hk : kindAt u k (w ++ t) = some w := kindAt_eq_some_iff.mpr ⟨t, rfl, hspells, hat.closes⟩
    have hsome : (IdKind.all.findSome? fun k => kindAt u k (w ++ t)).isSome = true := by
      refine List.findSome?_isSome_iff.mpr ⟨k, by cases k <;> decide, ?_⟩
      rw [hk]
      rfl
    obtain ⟨v, hv⟩ := Option.isSome_iff_exists.mp hsome
    refine ⟨v, ?_, length_le_of_findSome hk hv⟩
    rw [spineId, if_pos hat.opens, hv]
  takes := by
    intro prev w t hat
    obtain ⟨k, hspells⟩ := hat.spells
    obtain ⟨v, rfl, -⟩ := spells_form.mp hspells
    obtain ⟨c, s, hhead, -⟩ := head_letter k
    rw [hhead]
    exact List.cons_ne_nil _ _
  nested := by
    intro prev w t a x r hat heq hne hlt hat'
    obtain ⟨k, hspells⟩ := hat.spells
    obtain ⟨k', hspells'⟩ := hat'.spells
    have ht := closes_spells hspells hat.closes
    have hr := closes_spells hspells' hat'.closes
    obtain ⟨v, rfl, hv⟩ := spells_form.mp hspells
    obtain ⟨v', rfl, hv'⟩ := spells_form.mp hspells'
    have hlast : a.getLast?.any u.word = false := by
      obtain ⟨c, s, hhead, hc⟩ := head_letter k'
      have hopens := hat'.opens
      have hword : u.word c = true := (u.word_ascii c hc.ascii).trans hc.word
      rw [lastOr_of_ne_nil hne prev none, lastOr, Option.or_none, hhead, Look.holds] at hopens
      simpa [hword] using hopens
    exact nested_length hv hv' ht hr heq hne hlt hlast

/-- What neither belongs to an identifier nor joins its parts. -/
def between (u : WordTables) (c : Char) : Bool := !u.word c && c != '.' && c != '-'

theorem not_word_of_between {c : Char} (h : between u c = true) : u.word c = false := by
  unfold between at h
  simp only [Bool.and_eq_true, Bool.not_eq_true'] at h
  exact h.1.1

theorem Numbers.mem {n : Nat} {v : List Char} (h : Numbers u n v) :
    ∀ c ∈ v, u.digit c = true ∨ c = '.' := by
  induction n generalizing v with
  | zero => exact fun c hc => .inl (h.2 c hc)
  | succ n ih =>
    obtain ⟨d, x, rfl, hd, hx⟩ := h
    intro c hc
    rcases List.mem_append.mp hc with hc | hc
    · exact .inl (hd.2 c hc)
    · rcases List.mem_cons.mp hc with rfl | hc
      · exact .inr rfl
      · exact ih hx c hc

theorem not_between {k : IdKind} {w : List Char} (hw : Spells (form u k) w) :
    ∀ c ∈ w, between u c = false := by
  obtain ⟨v, rfl, hv⟩ := spells_form.mp hw
  have hhead : ∀ c ∈ k.head, asciiWord c = true ∨ c = '-' := by
    cases k <;> exact Numerals.forall_mem_of_all (by decide)
  intro c hc
  rcases List.mem_append.mp hc with hc | hc
  · rcases hhead c hc with hword | rfl
    · rw [between, u.word_ascii c (head_ascii k c hc)]
      have hword : (c.isAlphanum || c == '_') = true := hword
      rw [hword]
      rfl
    · simp [between]
  · rcases hv.mem c hc with hdigit | rfl
    · simp [between, u.word_of_digit c hdigit]
    · simp [between]

theorem kindAt_append {c : Char} (hc : between u c = true) (k : IdKind) (t s : List Char) :
    kindAt u k (t ++ c :: s) = kindAt u k t := by
  have hword := not_word_of_between hc
  have hcloses (w z : List Char) : closes u w (z ++ c :: s) = closes u w z := by
    cases z with
    | nil => simp [closes, Look.holds, hword]
    | cons d z => rfl
  apply Option.ext
  intro w
  rw [kindAt_eq_some_iff, kindAt_eq_some_iff]
  constructor
  · rintro ⟨r, heq, hw, hr⟩
    have hne : ∀ x ∈ w, (x != c) = true := by
      intro x hx
      have hx' := not_between hw x hx
      refine bne_iff_ne.mpr ?_
      rintro rfl
      rw [hc] at hx'
      cases hx'
    obtain ⟨z, rfl, rfl⟩ := run_within heq hne (by simp)
    rw [hcloses] at hr
    exact ⟨z, rfl, hw, hr⟩
  · rintro ⟨z, rfl, hw, hz⟩
    exact ⟨z ++ c :: s, List.append_assoc .., hw, by rw [hcloses, hz]⟩

theorem spineId_separated : (spineId u).Separated (between u) where
  takes := by
    intro prev s w h
    obtain ⟨t, rfl, hat⟩ := spineId_longest.sound h
    exact ⟨spineId_longest.takes hat, List.prefix_append w t⟩
  behind := by
    intro c hc s
    have hword := not_word_of_between hc
    simp [spineId, Look.holds, hword]
  ahead := by
    intro c hc prev t s
    have hword := not_word_of_between hc
    have hopens : (Look.boundary u.word).holds prev (t ++ c :: s).head? =
        (Look.boundary u.word).holds prev t.head? := by
      cases t with
      | nil => simp [Look.holds, hword]
      | cons d t => rfl
    simp only [spineId, hopens, kindAt_append hc]

/-- An identifier occurs on a line: it stands there between word boundaries and is not part of a
longer one. -/
def Mentions (u : WordTables) (line id : List Char) : Prop :=
  ∃ pos, Finder.Whole (IdAt u) line (pos, id)

theorem mem_words_iff_mentions (line id : List Char) :
    id ∈ (spineId u).words line ↔ Mentions u line id :=
  spineId_longest.mem_words_iff line id

/-! ## References -/

structure ResolvedReference where
  idText : String
  idKind : String
  targetType : String
  lineInSource : Nat
  targetNodeId : Option String := none

variable (u)

/-- `pattern.fullmatch`. -/
def fullmatch (k : IdKind) (token : List Char) : Bool :=
  (Look.boundary u.word).holds none token.head? &&
    ((form u k).first token fun w t => if t = [] ∧ closes u w t then some w else none).isSome

/-- `_classify`; `none` is unknown. -/
def classify (token : List Char) : Option IdKind := IdKind.all.find? fun k => fullmatch u k token

/-- Binary search for the last start up to an offset. -/
def lineLoop (starts : List Nat) (offset lo hi : Nat) : Nat :=
  if lo < hi then
    let mid := (lo + hi + 1) / 2
    if starts.getD mid 0 ≤ offset then lineLoop starts offset mid hi
    else lineLoop starts offset lo (mid - 1)
  else lo
termination_by hi - lo

/-- `_line_of`. -/
def lineOf (starts : List Nat) (offset : Nat) : Nat :=
  lineLoop starts offset 0 (starts.length - 1) + 1

namespace ResolvedReference

/-- `(r.id_text, r.line_in_source)`. -/
def key (r : ResolvedReference) : String × Nat := (r.idText, r.lineInSource)

def ofToken (token : List Char) (line : Nat) : ResolvedReference where
  idText := String.ofList token
  idKind := ((classify u token).map IdKind.text).getD "unknown"
  targetType := ((classify u token).map IdKind.targetType).getD "Document"
  lineInSource := line

end ResolvedReference

/-- `_dedupe`, with the keys that were seen. -/
def dedupe : List (String × Nat) → List ResolvedReference → List ResolvedReference
  | _, [] => []
  | seen, r :: refs =>
    if seen.contains r.key then dedupe seen refs else r :: dedupe (r.key :: seen) refs

def extractReferences (text : List Char) (lineOffset : Nat) : List ResolvedReference :=
  if text = [] then []
  else
    let starts := 0 :: Finder.startsFrom 0 text
    dedupe [] (((spineId u).matchesOf text).map fun m =>
      .ofToken u m.2 (lineOf starts m.1 + lineOffset))

variable {u}

theorem getD_lt {starts : List Nat} (hsorted : starts.Pairwise (· < ·)) {i j : Nat} (hij : i < j)
    (hj : j < starts.length) : starts.getD i 0 < starts.getD j 0 := by
  rw [List.getD_eq_getElem _ _ (hij.trans hj), List.getD_eq_getElem _ _ hj]
  exact List.pairwise_iff_getElem.mp hsorted i j _ hj hij

/-- The starts up to an offset are the first ones. -/
theorem countP_of_cut {starts : List Nat} (hsorted : starts.Pairwise (· < ·)) {offset i : Nat}
    (hi : i < starts.length) (hle : starts.getD i 0 ≤ offset)
    (hgt : ∀ j, i < j → j < starts.length → offset < starts.getD j 0) :
    starts.countP (· ≤ offset) = i + 1 := by
  have hbefore : (starts.take (i + 1)).countP (· ≤ offset) = (starts.take (i + 1)).length := by
    refine List.countP_eq_length.mpr fun n hn => decide_eq_true ?_
    obtain ⟨j, hj, rfl⟩ := List.mem_take_iff_getElem.mp hn
    rw [← List.getD_eq_getElem starts 0]
    rcases Nat.lt_or_ge j i with hlt | hge
    · exact (Nat.le_of_lt (getD_lt hsorted hlt hi)).trans hle
    · obtain rfl : j = i := by omega
      exact hle
  have hbehind : (starts.drop (i + 1)).countP (· ≤ offset) = 0 := by
    refine List.countP_eq_zero.mpr fun n hn => ?_
    obtain ⟨j, hj, rfl⟩ := List.mem_drop_iff_getElem.mp hn
    have hlt := hgt (i + 1 + j) (by omega) (by omega)
    rw [List.getD_eq_getElem] at hlt
    simpa using hlt
  rw [← List.take_append_drop (i + 1) starts, List.countP_append, hbefore, hbehind,
    List.length_take, Nat.add_zero]
  exact Nat.min_eq_left hi

/-- The search finds the number of the starts up to the offset. -/
theorem lineLoop_eq {starts : List Nat} (hsorted : starts.Pairwise (· < ·)) {offset lo hi : Nat}
    (hle : lo ≤ hi) (hhi : hi < starts.length) (hlow : starts.getD lo 0 ≤ offset)
    (hhigh : ∀ j, hi < j → j < starts.length → offset < starts.getD j 0) :
    lineLoop starts offset lo hi + 1 = starts.countP (· ≤ offset) := by
  induction lo, hi using lineLoop.induct starts offset with
  | case1 lo hi hlt mid hmid ih =>
    rw [lineLoop, if_pos hlt]
    dsimp only
    rw [if_pos hmid]
    exact ih (by omega) hhi hmid hhigh
  | case2 lo hi hlt mid hmid ih =>
    rw [lineLoop, if_pos hlt]
    dsimp only
    rw [if_neg hmid]
    refine ih (by omega) (by omega) hlow fun j hj hjlen => ?_
    rcases Nat.eq_or_lt_of_le (show mid ≤ j by omega) with rfl | hlt'
    · exact Nat.lt_of_not_le hmid
    · exact (Nat.lt_of_not_le hmid).trans (getD_lt hsorted hlt' hjlen)
  | case3 lo hi hge =>
    rw [lineLoop, if_neg hge]
    obtain rfl : lo = hi := by omega
    exact (countP_of_cut hsorted hhi hlow hhigh).symm

theorem lineOf_eq (offset : Nat) (text : List Char) :
    lineOf (0 :: Finder.startsFrom 0 text) offset =
      (0 :: Finder.startsFrom 0 text).countP (· ≤ offset) := by
  have hsorted : (0 :: Finder.startsFrom 0 text).Pairwise (· < ·) :=
    List.pairwise_cons.mpr
      ⟨fun n hn => Finder.lt_of_mem_startsFrom hn, Finder.pairwise_startsFrom 0 text⟩
  refine lineLoop_eq hsorted (Nat.zero_le _) ?_ (Nat.zero_le _) fun j hj hjlen => ?_
  · exact Nat.sub_lt (Nat.succ_pos _) Nat.one_pos
  · omega

/-- The references of lines, before repetitions are left out: the words of each line with its
number. -/
theorem references_lines {lines : List (List Char)} (hlines : ∀ line ∈ lines, '\n' ∉ line)
    (lineOffset : Nat) :
    (((spineId u).matchesOf (['\n'].intercalate lines)).map fun m =>
        ResolvedReference.ofToken u m.2
          (lineOf (0 :: Finder.startsFrom 0 (['\n'].intercalate lines)) m.1 + lineOffset)) =
      ((spineId u).numberedWords 1 lines).map fun m =>
        ResolvedReference.ofToken u m.2 (m.1 + lineOffset) := by
  have hnewline : between u '\n' = true := by
    have hword : u.word '\n' = false := u.word_of_space '\n' (by decide)
    simp [between, hword]
  rw [← spineId_separated.map_matchesFrom_lines hnewline hlines 0 0, List.map_map]
  refine List.map_congr_left fun m _ => ?_
  rw [Function.comp_apply, lineOf_eq, Nat.zero_add]

theorem mem_dedupe_keys {seen : List (String × Nat)} {refs : List ResolvedReference}
    {key : String × Nat} :
    key ∈ (dedupe seen refs).map ResolvedReference.key ↔
      key ∈ refs.map ResolvedReference.key ∧ key ∉ seen := by
  induction refs generalizing seen with
  | nil => simp [dedupe]
  | cons r refs ih =>
    rw [dedupe, List.map_cons, List.mem_cons]
    split_ifs with hseen
    · rw [ih]
      have hmem : r.key ∈ seen := List.contains_iff_mem.mp hseen
      constructor
      · rintro ⟨hkey, hnot⟩
        exact ⟨.inr hkey, hnot⟩
      · rintro ⟨rfl | hkey, hnot⟩
        · exact absurd hmem hnot
        · exact ⟨hkey, hnot⟩
    · have hnot : r.key ∉ seen := fun hmem => hseen (List.contains_iff_mem.mpr hmem)
      rw [List.map_cons, List.mem_cons, ih, List.mem_cons]
      constructor
      · rintro (rfl | ⟨hkey, hother⟩)
        · exact ⟨.inl rfl, hnot⟩
        · exact ⟨.inr hkey, fun hmem => hother (.inr hmem)⟩
      · rintro ⟨rfl | hkey, hfresh⟩
        · exact .inl rfl
        · by_cases heq : key = r.key
          · exact .inl heq
          · exact .inr ⟨hkey, fun hor => hor.elim heq hfresh⟩

theorem nodup_dedupe_keys (seen : List (String × Nat)) (refs : List ResolvedReference) :
    ((dedupe seen refs).map ResolvedReference.key).Nodup := by
  induction refs generalizing seen with
  | nil => exact List.nodup_nil
  | cons r refs ih =>
    rw [dedupe]
    split_ifs
    · exact ih seen
    · rw [List.map_cons, List.nodup_cons]
      exact ⟨fun hmem => (mem_dedupe_keys.mp hmem).2 List.mem_cons_self, ih _⟩

/-- The references are the words of the lines, counted from the line after the offset. -/
theorem mem_extractReferences {lines : List (List Char)} (hlines : ∀ line ∈ lines, '\n' ∉ line)
    (lineOffset : Nat) (key : String × Nat) :
    key ∈ (extractReferences u (['\n'].intercalate lines) lineOffset).map ResolvedReference.key ↔
      ∃ (i : Nat) (line id : List Char), lines[i]? = some line ∧ id ∈ (spineId u).words line ∧
        key = (String.ofList id, 1 + i + lineOffset) := by
  have hrefs : extractReferences u (['\n'].intercalate lines) lineOffset =
      dedupe [] (((spineId u).numberedWords 1 lines).map fun m =>
        .ofToken u m.2 (m.1 + lineOffset)) := by
    rw [← references_lines hlines, extractReferences]
    split_ifs with hempty
    · rw [hempty]
      rfl
    · rfl
  rw [hrefs, mem_dedupe_keys, List.map_map, List.mem_map]
  constructor
  · rintro ⟨⟨m, hm, rfl⟩, -⟩
    obtain ⟨i, line, hget, hplace, hw⟩ := Finder.mem_numberedWords.mp hm
    exact ⟨i, line, m.2, hget, hw, by rw [← hplace]; rfl⟩
  · rintro ⟨i, line, id, hget, hw, rfl⟩
    exact ⟨⟨(1 + i, id), Finder.mem_numberedWords.mpr ⟨i, line, hget, rfl, hw⟩, rfl⟩,
      List.not_mem_nil⟩

theorem nodup_extractReferences (text : List Char) (lineOffset : Nat) :
    ((extractReferences u text lineOffset).map ResolvedReference.key).Nodup := by
  rw [extractReferences]
  split_ifs
  · exact List.nodup_nil
  · exact nodup_dedupe_keys [] _

end SpineFormal.Kg
