import SpineFormal.Base.Base64
import SpineFormal.Base.Sha256

/-!
# Text and the bytes of text files

Trimming text, decoding UTF-8, the ASCII white space of `bytes.strip` and
`bytes.splitlines`, and `base64.b64decode` without validation, which passes
over what is not a digit.
-/

namespace SpineFormal

set_option autoImplicit false

/-- White space as `str_strip_whitespace` trims it. -/
def whiteSpace (c : Char) : Bool :=
  decide ((9 ≤ c.toNat ∧ c.toNat ≤ 13) ∨ (0x2000 ≤ c.toNat ∧ c.toNat ≤ 0x200a)) ||
    [0x20, 0x85, 0xa0, 0x1680, 0x2028, 0x2029, 0x202f, 0x205f, 0x3000].contains c.toNat

/-- White space as `str.strip` removes it: the four separators count too. -/
def pySpace (c : Char) : Bool :=
  whiteSpace c || decide (0x1c ≤ c.toNat ∧ c.toNat ≤ 0x1f)

def trimBy (space : Char → Bool) (s : List Char) : List Char :=
  ((s.dropWhile space).reverse.dropWhile space).reverse

/-- `bs.decode("utf-8")`; `none` is `UnicodeDecodeError`. -/
def decodeUtf8 (bs : Bytes) : Option (List Char) := bs.toByteArray.utf8Decode?.map Array.toList

@[simp] theorem decodeUtf8_encodeUtf8 (text : List Char) :
    decodeUtf8 (encodeUtf8 text) = some text := by
  have hbytes : (encodeUtf8 text).toByteArray = text.utf8Encode := rfl
  rw [decodeUtf8, hbytes, List.utf8Decode?_utf8Encode]
  rfl

theorem encodeUtf8_cons (c : Char) (s : List Char) :
    encodeUtf8 (c :: s) = String.utf8EncodeChar c ++ encodeUtf8 s := rfl

theorem encodeUtf8_append (s t : List Char) : encodeUtf8 (s ++ t) = encodeUtf8 s ++ encodeUtf8 t :=
  List.flatMap_append

theorem encodeChar_of_ascii {c : Char} (h : c.toNat < 128) :
    String.utf8EncodeChar c = [UInt8.ofNat c.toNat] := by
  have hle : c.val.toNat ≤ 0x7f := Nat.le_of_lt_succ h
  rw [String.utf8EncodeChar]
  simp only [hle, if_true]
  rfl

theorem le_of_mem_encodeChar {c : Char} (h : 128 ≤ c.toNat) {b : UInt8}
    (hb : b ∈ String.utf8EncodeChar c) : 128 ≤ b.toNat := by
  have hgt : ¬ c.val.toNat ≤ 0x7f := Nat.not_le.mpr h
  rw [String.utf8EncodeChar] at hb
  simp only [hgt, if_false] at hb
  split_ifs at hb <;> simp only [List.mem_cons, List.not_mem_nil, or_false] at hb <;>
    rcases hb with rfl | rfl | rfl | rfl <;> simp <;> omega

theorem ascii_mem_encodeUtf8 {a : Char} (ha : a.toNat < 128) (s : List Char) :
    UInt8.ofNat a.toNat ∈ encodeUtf8 s ↔ a ∈ s := by
  rw [encodeUtf8, List.mem_flatMap]
  constructor
  · rintro ⟨c, hc, hmem⟩
    by_cases hlow : c.toNat < 128
    · rw [encodeChar_of_ascii hlow, List.mem_singleton] at hmem
      have heq := congrArg UInt8.toNat hmem
      simp only [UInt8.toNat_ofNat'] at heq
      obtain rfl : a = c := Char.toNat_inj.mp (by omega)
      exact hc
    · have hhigh := le_of_mem_encodeChar (Nat.le_of_not_lt hlow) hmem
      simp only [UInt8.toNat_ofNat'] at hhigh
      omega
  · intro h
    exact ⟨a, h, by rw [encodeChar_of_ascii ha]; exact List.mem_singleton_self _⟩

/-- The characters at which `str.splitlines` ends a line. -/
def lineBreak (c : Char) : Bool :=
  decide ((10 ≤ c.toNat ∧ c.toNat ≤ 13) ∨ (0x1c ≤ c.toNat ∧ c.toNat ≤ 0x1e)) ||
    [0x85, 0x2028, 0x2029].contains c.toNat

/-- `text.splitlines()`. -/
def splitlines : List Char → List (List Char)
  | [] => []
  | '\r' :: '\n' :: rest => [] :: splitlines rest
  | c :: rest =>
    if lineBreak c then [] :: splitlines rest
    else
      match splitlines rest with
      | [] => [[c]]
      | line :: lines => (c :: line) :: lines

theorem splitlines_line {line : List Char} (h : ∀ c ∈ line, lineBreak c = false)
    (rest : List Char) : splitlines (line ++ '\n' :: rest) = line :: splitlines rest := by
  induction line with
  | nil =>
    rw [List.nil_append, splitlines, if_pos (by decide)]
    simp
  | cons c line ih =>
    have hc : lineBreak c = false := h c List.mem_cons_self
    rw [List.cons_append, splitlines, if_neg (by simp [hc]),
      ih fun d hd => h d (List.mem_cons_of_mem c hd)]
    rintro _ rfl
    exact absurd hc (by decide)

/-- Where the first separator stands is determined. -/
theorem append_cons_inj_of_notMem_left {sep : Char} {a b x y : List Char} (ha : sep ∉ a)
    (hb : sep ∉ b) (h : a ++ sep :: x = b ++ sep :: y) : a = b ∧ x = y := by
  have hsplit := congrArg (List.splitOn sep) h
  rw [List.splitOn_append_cons_self_of_not_mem ha, List.splitOn_append_cons_self_of_not_mem hb]
    at hsplit
  obtain rfl : a = b := (List.cons_eq_cons.mp hsplit).1
  exact ⟨rfl, (List.cons_eq_cons.mp (List.append_cancel_left h)).2⟩

theorem mem_sep_or_field {sep : List Char} {c : Char} {fields : List (List Char)}
    (h : c ∈ sep.intercalate fields) : c ∈ sep ∨ ∃ field ∈ fields, c ∈ field := by
  induction fields with
  | nil => cases h
  | cons field fields ih =>
    cases fields with
    | nil =>
      rw [List.intercalate_singleton] at h
      exact .inr ⟨field, List.mem_cons_self, h⟩
    | cons next fields =>
      rw [List.intercalate_cons_cons, List.append_assoc] at h
      rcases List.mem_append.mp h with h | h
      · exact .inr ⟨field, List.mem_cons_self, h⟩
      · rcases List.mem_append.mp h with h | h
        · exact .inl h
        · rcases ih h with h | ⟨f, hf, h⟩
          · exact .inl h
          · exact .inr ⟨f, List.mem_cons_of_mem field hf, h⟩

theorem mem_intercalate {sep c : Char} {fields : List (List Char)}
    (h : c ∈ [sep].intercalate fields) : c = sep ∨ ∃ field ∈ fields, c ∈ field :=
  (mem_sep_or_field h).imp_left List.mem_singleton.mp

theorem splitOn_intercalate_concat {sep : Char} {fields : List (List Char)}
    (h : ∀ field ∈ fields, sep ∉ field) (last : List Char) :
    ([sep].intercalate (fields ++ [last])).splitOn sep = fields ++ last.splitOn sep := by
  induction fields with
  | nil => rw [List.nil_append, List.intercalate_singleton, List.nil_append]
  | cons field fields ih =>
    have hne : fields ++ [last] ≠ [] := by simp
    rw [List.cons_append, List.intercalate_cons_of_ne_nil hne, List.append_assoc,
      List.singleton_append, List.splitOn_append_cons_self_of_not_mem (h field List.mem_cons_self),
      ih fun f hf => h f (List.mem_cons_of_mem field hf), List.cons_append]

/-- The text of `replaceText` once the first `skip` characters are passed over. -/
def replaceFrom (old new : List Char) : Nat → List Char → List Char
  | _, [] => []
  | skip + 1, _ :: s => replaceFrom old new skip s
  | 0, c :: s =>
    if old.isPrefixOf (c :: s) then new ++ replaceFrom old new (old.length - 1) s
    else c :: replaceFrom old new 0 s

/-- `text.replace(old, new)`, for a pattern that is not empty. -/
def replaceText (old new text : List Char) : List Char := replaceFrom old new 0 text

theorem replaceText_append {a : Char} {old s : List Char} (new : List Char) (h : a ∉ s)
    (t : List Char) : replaceText (a :: old) new (s ++ t) = s ++ replaceText (a :: old) new t := by
  induction s with
  | nil => rfl
  | cons c s ih =>
    obtain ⟨hc, hs⟩ := List.ne_and_not_mem_of_not_mem_cons h
    have hno : ¬ (a :: old).isPrefixOf (c :: (s ++ t)) = true := by
      simp [List.isPrefixOf, hc]
    rw [List.cons_append, replaceText, replaceFrom, if_neg hno]
    exact congrArg (c :: ·) (ih hs)

def asciiSpace (b : UInt8) : Bool := b == 32 || (9 ≤ b && b ≤ 13)

/-- `bs.strip()`. -/
def stripBytes (bs : Bytes) : Bytes :=
  ((bs.dropWhile asciiSpace).reverse.dropWhile asciiSpace).reverse

/-- `bs.splitlines()`: lines end with `\n`, `\r` or `\r\n`. -/
def splitlinesBytes : Bytes → List Bytes
  | [] => []
  | 13 :: 10 :: rest => [] :: splitlinesBytes rest
  | b :: rest =>
    if b = 10 ∨ b = 13 then [] :: splitlinesBytes rest
    else
      match rest, splitlinesBytes rest with
      | [], _ => [[b]]
      | _, [] => [[b]]
      | _, line :: lines => (b :: line) :: lines

example : splitlinesBytes (encodeUtf8 "a\r\n\nb\rc".toList) =
    ["a", "", "b", "c"].map fun s => encodeUtf8 s.toList := by
  decide

/-- `binascii.a2b_base64`: `quad` digits of the group are read, `left` holds the bits still to go
out, `pads` counts the signs of equality since the last digit. -/
def a2bBase64 (quad left pads : Nat) : Bytes → Option Bytes
  | [] => if quad = 0 then some [] else none
  | b :: rest =>
    if b = 61 then
      if 2 ≤ quad then
        if 4 ≤ quad + (pads + 1) then some [] else a2bBase64 quad left (pads + 1) rest
      else a2bBase64 quad left pads rest
    else
      match Base64.digitVal (Char.ofNat b.toNat) with
      | none => a2bBase64 quad left pads rest
      | some v =>
        if quad = 0 then a2bBase64 1 v 0 rest
        else if quad = 1 then
          (a2bBase64 2 (v % 16) 0 rest).map (UInt8.ofNat (left * 4 + v / 16) :: ·)
        else if quad = 2 then
          (a2bBase64 3 (v % 4) 0 rest).map (UInt8.ofNat (left * 16 + v / 4) :: ·)
        else (a2bBase64 0 0 0 rest).map (UInt8.ofNat (left * 64 + v) :: ·)

def b64decode (bs : Bytes) : Option Bytes := a2bBase64 0 0 0 bs

example : b64decode (encodeUtf8 "aGk=".toList) = some [104, 105] ∧
    b64decode (encodeUtf8 "a-G\nk=trailing".toList) = some [104, 105] ∧
    b64decode (encodeUtf8 "aGk".toList) = none := by
  decide

end SpineFormal
