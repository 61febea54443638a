import SpineFormal.Base.Numerals

/-!
# JSON string literals

`encode_basestring_ascii` (the encoder under `ensure_ascii=True`) and
`scanstring` (strict mode). Output is printable ASCII: everything else is a `\u`
escape, beyond the basic plane a surrogate pair. The reader also accepts an
unpaired surrogate escape; no Lean character is one, so `U+FFFD` stands for it.
-/

namespace SpineFormal.Json

open Numerals
set_option autoImplicit false

def unicodeEscape (u : Nat) : List Char := '\\' :: 'u' :: fixed 16 4 u

/-- One character of `encode_basestring_ascii`. -/
def escapeChar (c : Char) : List Char :=
  if c = '"' then ['\\', '"']
  else if c = '\\' then ['\\', '\\']
  else if c = '\n' then ['\\', 'n']
  else if c = '\r' then ['\\', 'r']
  else if c = '\t' then ['\\', 't']
  else if c = '\x0c' then ['\\', 'f']
  else if c = '\x08' then ['\\', 'b']
  else if 0x20 ≤ c.toNat ∧ c.toNat ≤ 0x7e then [c]
  else if c.toNat < 0x10000 then unicodeEscape c.toNat
  else unicodeEscape (0xd800 + (c.toNat - 0x10000) / 0x400) ++
    unicodeEscape (0xdc00 + (c.toNat - 0x10000) % 0x400)

def encodeString (s : String) : List Char :=
  '"' :: (s.toList.flatMap escapeChar ++ ['"'])

/-- A hexadecimal digit of either case. -/
def hexVal (c : Char) : Option Nat :=
  if 'A' ≤ c ∧ c ≤ 'F' then some (c.toNat - 55) else digitVal c

def hex4 (a b c d : Char) : Option Nat :=
  match hexVal a, hexVal b, hexVal c, hexVal d with
  | some a, some b, some c, some d => some (((a * 16 + b) * 16 + c) * 16 + d)
  | _, _, _, _ => none

def simpleEscape : Char → Option Char
  | '"' => some '"'
  | '\\' => some '\\'
  | '/' => some '/'
  | 'b' => some '\x08'
  | 'f' => some '\x0c'
  | 'n' => some '\n'
  | 'r' => some '\r'
  | 't' => some '\t'
  | _ => none

/-- The literal after its opening quote, as code units, and what follows it. -/
def scanUnits : List Char → Option (List Nat × List Char)
  | [] => none
  | '"' :: s => some ([], s)
  | '\\' :: 'u' :: a :: b :: c :: d :: s =>
    match hex4 a b c d with
    | none => none
    | some u => (scanUnits s).map fun p => (u :: p.1, p.2)
  | '\\' :: e :: s =>
    match simpleEscape e with
    | none => none
    | some c => (scanUnits s).map fun p => (c.toNat :: p.1, p.2)
  | c :: s =>
    if c = '\\' ∨ c.toNat < 0x20 then none
    else (scanUnits s).map fun p => (c.toNat :: p.1, p.2)

/-- `chr` of a code unit, with the stand-in for an unpaired surrogate. -/
def chr (u : Nat) : Char := if 0xd800 ≤ u ∧ u < 0xe000 then '\ufffd' else Char.ofNat u

/-- Adjacent high and low surrogates become one character. -/
def joinSurrogates : List Nat → List Char
  | [] => []
  | [u] => [chr u]
  | u :: l :: us =>
    if (0xd800 ≤ u ∧ u < 0xdc00) ∧ (0xdc00 ≤ l ∧ l < 0xe000) then
      Char.ofNat (0x10000 + (u - 0xd800) * 0x400 + (l - 0xdc00)) :: joinSurrogates us
    else chr u :: joinSurrogates (l :: us)

/-- `scanstring`: the literal's characters, and what follows its closing quote. -/
def scanString (s : List Char) : Option (List Char × List Char) :=
  (scanUnits s).map fun p => (joinSurrogates p.1, p.2)

theorem hexVal_digitChar : ∀ d, d < 16 → hexVal (Nat.digitChar d) = some d := by decide

theorem fixed_four (n : Nat) : fixed 16 4 n =
    [Nat.digitChar (n / 4096 % 16), Nat.digitChar (n / 256 % 16), Nat.digitChar (n / 16 % 16),
      Nat.digitChar (n % 16)] := by
  simp [fixed, Nat.div_div_eq_div_mul]

theorem hex4_fixed {n : Nat} (hn : n < 0x10000) :
    hex4 (Nat.digitChar (n / 4096 % 16)) (Nat.digitChar (n / 256 % 16))
      (Nat.digitChar (n / 16 % 16)) (Nat.digitChar (n % 16)) = some n := by
  simp only [hex4, hexVal_digitChar _ (Nat.mod_lt _ (by decide : 0 < 16)), Option.some.injEq]
  omega

/-- A character is a scalar value: never a surrogate, below `0x110000`. -/
theorem char_range (c : Char) : c.toNat < 0xd800 ∨ (0xe000 ≤ c.toNat ∧ c.toNat < 0x110000) := by
  have h := c.valid
  simp only [UInt32.isValidChar, Nat.isValidChar] at h
  have heq : c.toNat = c.val.toNat := rfl
  omega

/-- The code units `encode_basestring_ascii` writes for a character. -/
def utf16 (c : Char) : List Nat :=
  if c.toNat < 0x10000 then [c.toNat]
  else [0xd800 + (c.toNat - 0x10000) / 0x400, 0xdc00 + (c.toNat - 0x10000) % 0x400]

theorem joinSurrogates_utf16 (c : Char) (us : List Nat) :
    joinSurrogates (utf16 c ++ us) = c :: joinSurrogates us := by
  have hrange := char_range c
  unfold utf16
  split_ifs with hbmp
  · have hchr : chr c.toNat = c := by
      rw [chr, if_neg (by omega), Char.ofNat_toNat]
    cases us with
    | nil => simp [joinSurrogates, hchr]
    | cons l us =>
      rw [List.cons_append, List.nil_append, joinSurrogates, if_neg (by omega), hchr]
  · have hback : 0x10000 + (0xd800 + (c.toNat - 0x10000) / 0x400 - 0xd800) * 0x400 +
        (0xdc00 + (c.toNat - 0x10000) % 0x400 - 0xdc00) = c.toNat := by omega
    rw [List.cons_append, List.cons_append, List.nil_append, joinSurrogates, if_pos (by omega),
      hback, Char.ofNat_toNat]

theorem scanUnits_unicode {u : Nat} (hu : u < 0x10000) (s : List Char) :
    scanUnits (unicodeEscape u ++ s) = (scanUnits s).map fun p => (u :: p.1, p.2) := by
  simp only [unicodeEscape, fixed_four, List.cons_append, List.nil_append, scanUnits, hex4_fixed hu]

theorem scanUnits_simple {e c : Char} (hu : e ≠ 'u') (he : simpleEscape e = some c) (s : List Char) :
    scanUnits ('\\' :: e :: s) = (scanUnits s).map fun p => (c.toNat :: p.1, p.2) := by
  rw [scanUnits.eq_def]
  split
  case h_5 hesc heq =>
    obtain ⟨rfl, rfl⟩ := List.cons.inj heq
    exact absurd rfl (hesc e s rfl)
  all_goals simp_all

theorem scanUnits_plain {c : Char} (hq : c ≠ '"') (hb : c ≠ '\\') (hlo : 0x20 ≤ c.toNat)
    (s : List Char) : scanUnits (c :: s) = (scanUnits s).map fun p => (c.toNat :: p.1, p.2) := by
  have hctl : ¬ (c = '\\' ∨ c.toNat < 0x20) := by
    rintro (h | h)
    · exact hb h
    · omega
  rw [scanUnits.eq_def]
  split <;> simp_all

/-- Reading undoes writing, one character at a time. -/
theorem scanUnits_escapeChar (c : Char) (s : List Char) :
    scanUnits (escapeChar c ++ s) = (scanUnits s).map fun p => (utf16 c ++ p.1, p.2) := by
  have hrange := char_range c
  unfold escapeChar
  split_ifs with hq hb hn hr ht hf hbs hascii hbmp
  · subst hq; exact scanUnits_simple (by decide) rfl s
  · subst hb; exact scanUnits_simple (by decide) rfl s
  · subst hn; exact scanUnits_simple (by decide) rfl s
  · subst hr; exact scanUnits_simple (by decide) rfl s
  · subst ht; exact scanUnits_simple (by decide) rfl s
  · subst hf; exact scanUnits_simple (by decide) rfl s
  · subst hbs; exact scanUnits_simple (by decide) rfl s
  · rw [utf16, if_pos (by omega)]
    exact scanUnits_plain hq hb hascii.1 s
  · rw [utf16, if_pos hbmp]
    exact scanUnits_unicode hbmp s
  · rw [utf16, if_neg hbmp, List.append_assoc, scanUnits_unicode (by omega),
      scanUnits_unicode (by omega), Option.map_map]
    rfl

theorem scanUnits_escapes (cs rest : List Char) :
    scanUnits (cs.flatMap escapeChar ++ '"' :: rest) = some (cs.flatMap utf16, rest) := by
  induction cs with
  | nil => simp [scanUnits]
  | cons c cs ih =>
    rw [List.flatMap_cons, List.append_assoc, scanUnits_escapeChar, ih]
    rfl

theorem scanString_escapes (cs rest : List Char) :
    scanString (cs.flatMap escapeChar ++ '"' :: rest) = some (cs, rest) := by
  have hjoin : joinSurrogates (cs.flatMap utf16) = cs := by
    induction cs with
    | nil => rfl
    | cons c cs ih => rw [List.flatMap_cons, joinSurrogates_utf16, ih]
  rw [scanString, scanUnits_escapes, Option.map_some, hjoin]

/-- Everything the encoder writes is printable ASCII. -/
def Printable (c : Char) : Prop := 0x20 ≤ c.toNat ∧ c.toNat ≤ 0x7e

instance (c : Char) : Decidable (Printable c) :=
  inferInstanceAs (Decidable (0x20 ≤ c.toNat ∧ c.toNat ≤ 0x7e))

theorem printable_unicodeEscape (u : Nat) : ∀ c ∈ unicodeEscape u, Printable c := by
  intro c hc
  simp only [unicodeEscape, List.mem_cons] at hc
  rcases hc with rfl | rfl | hc
  · decide
  · decide
  · obtain ⟨hlo, hhi⟩ := fixed_range (by decide) (by decide) hc
    exact ⟨hlo, Nat.le_of_lt_succ hhi⟩

theorem printable_escapeChar (c : Char) : ∀ d ∈ escapeChar c, Printable d := by
  unfold escapeChar
  split_ifs with _ _ _ _ _ _ _ hascii
  all_goals first
    | (intro d hd; simp only [List.mem_cons, List.not_mem_nil, or_false] at hd
       rcases hd with rfl | rfl <;> decide)
    | skip
  · intro d hd
    obtain rfl := List.mem_singleton.mp hd
    exact hascii
  · exact printable_unicodeEscape _
  · intro d hd
    rcases List.mem_append.mp hd with hd | hd <;> exact printable_unicodeEscape _ d hd

theorem printable_encodeString (s : String) : ∀ c ∈ encodeString s, Printable c := by
  intro c hc
  simp only [encodeString, List.mem_cons, List.mem_append, List.mem_flatMap] at hc
  rcases hc with rfl | ⟨d, _, hd⟩ | rfl | hnil
  · decide
  · exact printable_escapeChar d c hd
  · decide
  · contradiction

end SpineFormal.Json
