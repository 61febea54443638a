import SpineFormal.Base.PsqlSet
import SpineFormal.Json.Weight

/-!
# A JSON text behind `\set`

psql takes a backslash in a quoted argument for an escape of its own. JSON text has a
backslash only before one of eight letters, none of them a quote or a digit, so psql reads
the whole text and drops one backslash of each escape. What it has read can be a document,
but never the one that was written.
-/

namespace SpineFormal.Json

open Psql
set_option autoImplicit false

def escapeLetters : List Char := ['"', '\\', '/', 'b', 'f', 'n', 'r', 't', 'u']

/-- Every backslash begins an escape. -/
inductive EscapeText : List Char → Prop
  | nil : EscapeText []
  | plain {c : Char} {s : List Char} (hc : c ≠ '\\') (hs : EscapeText s) : EscapeText (c :: s)
  | escape {e : Char} {s : List Char} (he : e ∈ escapeLetters) (hs : EscapeText s) :
    EscapeText ('\\' :: e :: s)

theorem EscapeText.append {s t : List Char} (hs : EscapeText s) (ht : EscapeText t) :
    EscapeText (s ++ t) := by
  induction hs with
  | nil => exact ht
  | plain hc _ ih => exact .plain hc ih
  | escape he _ ih => exact .escape he ih

theorem escapeText_plain {s : List Char} (h : ∀ c ∈ s, c ≠ '\\') : EscapeText s := by
  induction s with
  | nil => exact .nil
  | cons c s ih =>
    obtain ⟨hc, hs⟩ := List.forall_mem_cons.mp h
    exact .plain hc (ih hs)

theorem escapeText_joinWith {sep : Char} (hsep : sep ≠ '\\') {xs : List (List Char)}
    (h : ∀ x ∈ xs, EscapeText x) : EscapeText (joinWith sep xs) := by
  induction xs with
  | nil => exact .nil
  | cons x xs ih =>
    have hx := h x List.mem_cons_self
    have hxs := ih fun y hy => h y (List.mem_cons_of_mem x hy)
    cases xs with
    | nil => exact hx
    | cons y ys => exact hx.append (.plain hsep hxs)

theorem escapeText_unicodeEscape (u : Nat) : EscapeText (unicodeEscape u) := by
  refine .escape (by decide) (escapeText_plain fun c hc => ?_)
  obtain ⟨d, hd, rfl⟩ := Numerals.mem_fixed (by decide) hc
  have hdigits : ∀ d < 16, Nat.digitChar d ≠ '\\' := by decide
  exact hdigits d hd

theorem escapeText_escapeChar (c : Char) : EscapeText (escapeChar c) := by
  unfold escapeChar
  split_ifs with _ hslash
  all_goals first
    | exact escapeText_unicodeEscape _
    | exact (escapeText_unicodeEscape _).append (escapeText_unicodeEscape _)
    | exact .plain hslash .nil
    | exact .escape (by decide) .nil

theorem escapeText_encodeString (s : String) : EscapeText (encodeString s) := by
  have hchars : ∀ cs : List Char, EscapeText (cs.flatMap escapeChar) := by
    intro cs
    induction cs with
    | nil => exact .nil
    | cons c cs ih => exact (escapeText_escapeChar c).append ih
  exact .plain (by decide) ((hchars _).append (.plain (by decide) .nil))

theorem escapeText_encode (v : Value) : EscapeText (encode v) := by
  induction v using Value.inductionOn with
  | null => exact escapeText_plain (Numerals.forall_mem_of_all (by decide))
  | bool b => cases b <;> exact escapeText_plain (Numerals.forall_mem_of_all (by decide))
  | int n =>
    rw [encode]
    exact escapeText_plain fun c hc => (numberChar_decimal n c hc).2.2.1
  | float x =>
    rw [encode]
    exact escapeText_plain fun c hc => (numberChar_floatstr x c hc).2.2.1
  | str s =>
    rw [encode]
    exact escapeText_encodeString s
  | arr xs ih =>
    rw [encode_arr]
    refine .plain (by decide) (.append (escapeText_joinWith (by decide) ?_) ?_)
    · exact List.forall_mem_map.mpr ih
    · exact .plain (by decide) .nil
  | obj ms ih =>
    rw [encode_obj]
    refine .plain (by decide) (.append (escapeText_joinWith (by decide) ?_) ?_)
    · exact List.forall_mem_map.mpr fun m hm =>
        (escapeText_encodeString m.1).append (.plain (by decide) (ih m hm))
    · exact .plain (by decide) .nil

/-! ## What psql reads -/

/-- The character that psql takes a letter behind a backslash for. -/
def psqlLetter (e : Char) : Char :=
  if e = 'n' then '\n' else if e = 't' then '\t' else if e = 'b' then '\x08'
  else if e = 'r' then '\r' else if e = 'f' then '\x0c' else e

def unslash : List Char → List Char
  | '\\' :: e :: s => psqlLetter e :: unslash s
  | c :: s => c :: unslash s
  | [] => []

theorem unslash_plain {c : Char} (hc : c ≠ '\\') (s : List Char) :
    unslash (c :: s) = c :: unslash s := by
  rw [unslash]
  exact fun _ _ hslash _ => hc hslash

theorem unslash_of_notMem {s : List Char} (h : '\\' ∉ s) : unslash s = s := by
  induction s with
  | nil => rfl
  | cons c s ih =>
    obtain ⟨hc, hs⟩ := List.ne_and_not_mem_of_not_mem_cons h
    rw [unslash_plain (Ne.symm hc), ih hs]

/-- Dropping a backslash takes weight away. -/
theorem weight_unslash {s : List Char} (h : EscapeText s) :
    weight (unslash s) ≤ weight s ∧ ('\\' ∈ s → weight (unslash s) < weight s) := by
  induction h with
  | nil => exact ⟨Nat.le_refl 0, nofun⟩
  | @plain c s hc _ ih =>
    rw [unslash_plain hc, weight_cons c, weight_cons c s]
    refine ⟨Nat.add_le_add_left ih.1 _, fun hmem => Nat.add_lt_add_left (ih.2 ?_) _⟩
    exact (List.mem_cons.mp hmem).resolve_left (Ne.symm hc)
  | @escape e s he _ ih =>
    have hletter : ∀ e ∈ escapeLetters, weight [psqlLetter e] < weight ['\\'] + weight [e] :=
      Numerals.forall_mem_of_all (by decide)
    have hlt := hletter e he
    rw [unslash, weight_cons, weight_cons '\\', weight_cons e]
    have hle := ih.1
    exact ⟨by omega, fun _ => by omega⟩

theorem ascii_unslash {s : List Char} (h : EscapeText s) (hs : ∀ c ∈ s, c.toNat ≤ 0x7e) :
    ∀ c ∈ unslash s, c.toNat ≤ 0x7e := by
  induction h with
  | nil => exact hs
  | @plain c s hc _ ih =>
    rw [unslash_plain hc]
    rw [List.forall_mem_cons] at hs ⊢
    exact ⟨hs.1, ih hs.2⟩
  | @escape e s he _ ih =>
    have hletter : ∀ e ∈ escapeLetters, (psqlLetter e).toNat ≤ 0x7e :=
      Numerals.forall_mem_of_all (by decide)
    rw [List.forall_mem_cons, List.forall_mem_cons] at hs
    rw [unslash, List.forall_mem_cons]
    exact ⟨hletter e he, ih hs.2.2⟩

/-- A text that is ASCII, in bytes. -/
def asciiBytes (s : List Char) : Bytes := s.map fun c => UInt8.ofNat c.toNat

theorem encodeUtf8_ascii {s : List Char} (h : ∀ c ∈ s, c.toNat ≤ 0x7e) :
    encodeUtf8 s = asciiBytes s := by
  induction s with
  | nil => rfl
  | cons c s ih =>
    obtain ⟨hc, hs⟩ := List.forall_mem_cons.mp h
    rw [encodeUtf8_cons, encodeChar_of_ascii (Nat.lt_succ_of_le hc |>.trans (by decide)), ih hs]
    rfl

theorem escape_letter {e : Char} (he : e ∈ escapeLetters) (s : Bytes) :
    Psql.escape (UInt8.ofNat e.toNat :: s) = some (UInt8.ofNat (psqlLetter e).toNat, s) := by
  simp only [escapeLetters, List.mem_cons, List.not_mem_nil, or_false] at he
  rcases he with rfl | rfl | rfl | rfl | rfl | rfl | rfl | rfl | rfl <;> rfl

theorem byte_ne {c a : Char} (hc : c.toNat ≤ 0x7e) (ha : a.toNat ≤ 0x7e) (h : c ≠ a) :
    UInt8.ofNat c.toNat ≠ UInt8.ofNat a.toNat := by
  intro heq
  have hnat := congrArg UInt8.toNat heq
  simp only [UInt8.toNat_ofNat'] at hnat
  exact h (Char.toNat_inj.mp (by omega))

/-- psql reads a JSON text to its end, without one backslash of each escape. -/
theorem quoted_escapeText {s : List Char} (h : EscapeText s) (hs : ∀ c ∈ s, c.toNat ≤ 0x7e)
    {fuel : Nat} (hfuel : s.length < fuel) :
    quoted fuel (doubled (asciiBytes s) ++ [39]) = some (asciiBytes (unslash s), []) := by
  induction h generalizing fuel with
  | nil =>
    obtain ⟨n, rfl⟩ := Nat.exists_eq_succ_of_ne_zero (Nat.ne_of_gt hfuel)
    exact quoted_close (by simp) n
  | @plain c s hc _ ih =>
    obtain ⟨n, rfl⟩ := Nat.exists_eq_succ_of_ne_zero (Nat.ne_of_gt (Nat.zero_lt_of_lt hfuel))
    obtain ⟨hlow, hs⟩ := List.forall_mem_cons.mp hs
    have hrest := ih hs (Nat.lt_of_succ_lt_succ hfuel)
    have hslash : UInt8.ofNat c.toNat ≠ 92 := byte_ne hlow (a := '\\') (by decide) hc
    rw [unslash_plain hc, asciiBytes, List.map_cons]
    by_cases hquote : c = '\''
    · subst hquote
      change quoted (n + 1) (doubled (39 :: asciiBytes s) ++ [39]) = _
      rw [doubled_quote, List.cons_append, List.cons_append, quoted_pair, hrest]
      rfl
    · have hne : UInt8.ofNat c.toNat ≠ 39 := byte_ne hlow (a := '\'') (by decide) hquote
      rw [doubled_plain hne, List.cons_append, quoted_plain hne hslash]
      change (quoted n (doubled (asciiBytes s) ++ [39])).map _ = _
      rw [hrest]
      rfl
  | @escape e s he _ ih =>
    obtain ⟨n, rfl⟩ := Nat.exists_eq_succ_of_ne_zero (Nat.ne_of_gt (Nat.zero_lt_of_lt hfuel))
    obtain ⟨-, hs⟩ := List.forall_mem_cons.mp hs
    obtain ⟨-, hs⟩ := List.forall_mem_cons.mp hs
    have hrest := ih hs (Nat.lt_of_succ_lt_succ (Nat.lt_of_succ_lt hfuel))
    have hletter : ∀ e ∈ escapeLetters, UInt8.ofNat e.toNat ≠ 39 :=
      Numerals.forall_mem_of_all (by decide)
    change quoted (n + 1) (doubled (92 :: UInt8.ofNat e.toNat :: asciiBytes s) ++ [39]) = _
    rw [doubled_plain (by decide), doubled_plain (hletter e he), List.cons_append,
      List.cons_append, quoted_escape, escape_letter he, Option.bind_some, hrest]
    rfl

end SpineFormal.Json
