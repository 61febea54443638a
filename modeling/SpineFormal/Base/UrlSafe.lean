import Mathlib.Data.List.DropRight
import SpineFormal.Base.TextCodec

/-!
# Keyed hashes and URL-safe base64

`hmac.new(key, m, hashlib.sha256).digest()`, `base64.urlsafe_b64encode` and
`base64.urlsafe_b64decode`. Decoding is as lenient as `b64decode`: it reads the
text of every byte string back, and many other texts besides.
-/

namespace SpineFormal

set_option autoImplicit false

/-- `hmac.new(key, m, hashlib.sha256).digest()`. -/
def hmacSha256 (key m : Bytes) : Bytes :=
  let short := if key.length ≤ 64 then key else sha256 key
  let block := short ++ List.replicate (64 - short.length) 0
  sha256 (block.map (· ^^^ 0x5c) ++ sha256 (block.map (· ^^^ 0x36) ++ m))

@[simp] theorem hmacSha256_length (key m : Bytes) : (hmacSha256 key m).length = 32 := by
  simp [hmacSha256]

example : hmacSha256 (encodeUtf8 "Jefe".toList)
      (encodeUtf8 "what do ya want for nothing?".toList) =
    [0x5b, 0xdc, 0xc1, 0x46, 0xbf, 0x60, 0x75, 0x4e, 0x6a, 0x04, 0x24, 0x26, 0x08, 0x95, 0x75, 0xc7,
     0x5a, 0x00, 0x3f, 0x08, 0x9d, 0x27, 0x39, 0x83, 0x9d, 0xec, 0x58, 0xb9, 0x64, 0xec, 0x38, 0x43] := by
  decide +kernel

/-- `text.encode("ascii")`; `none` is `UnicodeEncodeError`. -/
def encodeAscii (text : List Char) : Option Bytes :=
  if text.all (fun c => c.toNat < 128) then some (encodeUtf8 text) else none

theorem encodeAscii_of_ascii {text : List Char} (h : ∀ c ∈ text, c.toNat < 128) :
    encodeAscii text = some (encodeUtf8 text) :=
  if_pos (List.all_eq_true.mpr fun c hc => decide_eq_true (h c hc))

/-! ## Lenient decoding of a padded text -/

namespace Base64

theorem utf8_digit : ∀ n, n < 64 →
    String.utf8EncodeChar (digit n) = [UInt8.ofNat (digit n).toNat] := by
  decide +kernel

theorem digitByte : ∀ n, n < 64 → UInt8.ofNat (digit n).toNat ≠ 61 ∧
    digitVal (Char.ofNat (UInt8.ofNat (digit n).toNat).toNat) = some n := by
  decide +kernel

/-! The reader's four states, each on one digit. -/

theorem a2bBase64_quad_zero {n : Nat} (hn : n < 64) (left pads : Nat) (s : List Char) :
    a2bBase64 0 left pads (encodeUtf8 (digit n :: s)) = a2bBase64 1 n 0 (encodeUtf8 s) := by
  obtain ⟨hpad, hval⟩ := digitByte n hn
  rw [encodeUtf8_cons, utf8_digit n hn, List.singleton_append, a2bBase64, if_neg hpad, hval]
  rfl

theorem a2bBase64_quad_one {n : Nat} (hn : n < 64) (left pads : Nat) (s : List Char) :
    a2bBase64 1 left pads (encodeUtf8 (digit n :: s)) =
      (a2bBase64 2 (n % 16) 0 (encodeUtf8 s)).map (UInt8.ofNat (left * 4 + n / 16) :: ·) := by
  obtain ⟨hpad, hval⟩ := digitByte n hn
  rw [encodeUtf8_cons, utf8_digit n hn, List.singleton_append, a2bBase64, if_neg hpad, hval]
  rfl

theorem a2bBase64_quad_two {n : Nat} (hn : n < 64) (left pads : Nat) (s : List Char) :
    a2bBase64 2 left pads (encodeUtf8 (digit n :: s)) =
      (a2bBase64 3 (n % 4) 0 (encodeUtf8 s)).map (UInt8.ofNat (left * 16 + n / 4) :: ·) := by
  obtain ⟨hpad, hval⟩ := digitByte n hn
  rw [encodeUtf8_cons, utf8_digit n hn, List.singleton_append, a2bBase64, if_neg hpad, hval]
  rfl

theorem a2bBase64_quad_three {n : Nat} (hn : n < 64) (left pads : Nat) (s : List Char) :
    a2bBase64 3 left pads (encodeUtf8 (digit n :: s)) =
      (a2bBase64 0 0 0 (encodeUtf8 s)).map (UInt8.ofNat (left * 64 + n) :: ·) := by
  obtain ⟨hpad, hval⟩ := digitByte n hn
  rw [encodeUtf8_cons, utf8_digit n hn, List.singleton_append, a2bBase64, if_neg hpad, hval]
  rfl

/-- The lenient reader gives back what was encoded. -/
theorem b64decode_encode (bs : Bytes) : b64decode (encodeUtf8 (encode bs)) = some bs := by
  unfold b64decode
  induction bs using encode.induct with
  | case1 a b c rest ih =>
    have ha := a.toNat_lt
    have hb := b.toNat_lt
    have hc := c.toNat_lt
    rw [encode, a2bBase64_quad_zero (by omega), a2bBase64_quad_one (by omega),
      a2bBase64_quad_two (by omega), a2bBase64_quad_three (by omega), ih, Option.map_some,
      Option.map_some, Option.map_some, first_byte a (by omega), second_byte b (by omega),
      third_byte]
  | case2 a b =>
    have ha := a.toNat_lt
    have hb := b.toNat_lt
    have hpad : a2bBase64 3 (b.toNat % 16 * 4 % 4) 0 (encodeUtf8 ['=']) = some [] := rfl
    have hlast := second_byte b (m := a.toNat % 4) (show 0 < 4 by decide)
    rw [Nat.add_zero] at hlast
    rw [encode, a2bBase64_quad_zero (by omega), a2bBase64_quad_one (by omega),
      a2bBase64_quad_two (by omega), hpad, Option.map_some, Option.map_some,
      first_byte a (by omega), hlast]
  | case3 a =>
    have ha := a.toNat_lt
    have hpad : a2bBase64 2 (a.toNat % 4 * 16 % 16) 0 (encodeUtf8 ['=', '=']) = some [] := rfl
    have hlast := first_byte a (show 0 < 16 by decide)
    rw [Nat.add_zero] at hlast
    rw [encode, a2bBase64_quad_zero (by omega), a2bBase64_quad_one (by omega), hpad,
      Option.map_some, hlast]
  | case4 => rfl

/-! ## The URL-safe alphabet -/

def toUrl (c : Char) : Char := if c = '+' then '-' else if c = '/' then '_' else c

/-- `base64.urlsafe_b64encode`. -/
def urlsafeEncode (bs : Bytes) : List Char := (encode bs).map toUrl

def fromUrl (b : UInt8) : UInt8 := if b = 45 then 43 else if b = 95 then 47 else b

/-- `base64.urlsafe_b64decode` of a text. -/
def urlsafeDecode (s : List Char) : Option Bytes :=
  (encodeAscii s).bind fun bs => b64decode (bs.map fromUrl)

/-- The characters of an encoding. -/
def Digit (c : Char) : Prop := ∃ n < 64, c = digit n

/-- Digits, then as many signs of equality as fill the last group. -/
theorem encode_shape (bs : Bytes) : ∃ ds k, encode bs = ds ++ List.replicate k '=' ∧
    (∀ c ∈ ds, Digit c) ∧ k = (3 - bs.length % 3) % 3 ∧ (ds.length + k) % 4 = 0 := by
  induction bs using encode.induct with
  | case1 a b c rest ih =>
    obtain ⟨ds, k, hds, hdigit, hk, hlen⟩ := ih
    have ha := a.toNat_lt
    have hb := b.toNat_lt
    refine ⟨digit (a.toNat / 4) :: digit (a.toNat % 4 * 16 + b.toNat / 16) ::
      digit (b.toNat % 16 * 4 + c.toNat / 64) :: digit (c.toNat % 64) :: ds, k, ?_, ?_, ?_, ?_⟩
    · rw [encode, hds]
      rfl
    · have hc := c.toNat_lt
      simp only [List.mem_cons, forall_eq_or_imp]
      exact ⟨⟨_, by omega, rfl⟩, ⟨_, by omega, rfl⟩, ⟨_, by omega, rfl⟩, ⟨_, by omega, rfl⟩, hdigit⟩
    · simp only [List.length_cons]
      omega
    · simp only [List.length_cons]
      omega
  | case2 a b =>
    have ha := a.toNat_lt
    have hb := b.toNat_lt
    refine ⟨[digit (a.toNat / 4), digit (a.toNat % 4 * 16 + b.toNat / 16),
      digit (b.toNat % 16 * 4)], 1, rfl, ?_, rfl, by simp⟩
    simp only [List.mem_cons, List.not_mem_nil, or_false, forall_eq_or_imp, forall_eq]
    exact ⟨⟨_, by omega, rfl⟩, ⟨_, by omega, rfl⟩, ⟨_, by omega, rfl⟩⟩
  | case3 a =>
    have ha := a.toNat_lt
    refine ⟨[digit (a.toNat / 4), digit (a.toNat % 4 * 16)], 2, rfl, ?_, rfl, by simp⟩
    simp only [List.mem_cons, List.not_mem_nil, or_false, forall_eq_or_imp, forall_eq]
    exact ⟨⟨_, by omega, rfl⟩, ⟨_, by omega, rfl⟩⟩
  | case4 => exact ⟨[], 0, rfl, by simp, rfl, rfl⟩

/-- A character of the URL-safe alphabet: a byte, no sign of equality and no dot. -/
theorem Digit.toUrl {c : Char} (h : Digit c) :
    (toUrl c).toNat < 128 ∧ toUrl c ≠ '=' ∧ toUrl c ≠ '.' ∧
      (String.utf8EncodeChar (toUrl c)).map fromUrl = String.utf8EncodeChar c := by
  obtain ⟨n, hn, rfl⟩ := h
  have hall : ∀ n < 64, (Base64.toUrl (digit n)).toNat < 128 ∧ Base64.toUrl (digit n) ≠ '=' ∧
      Base64.toUrl (digit n) ≠ '.' ∧ (String.utf8EncodeChar (Base64.toUrl (digit n))).map fromUrl =
        String.utf8EncodeChar (digit n) := by
    decide +kernel
  exact hall n hn

theorem mem_encode {bs : Bytes} {c : Char} (h : c ∈ encode bs) : Digit c ∨ c = '=' := by
  obtain ⟨ds, k, hds, hdigit, -⟩ := encode_shape bs
  rw [hds, List.mem_append] at h
  rcases h with h | h
  · exact .inl (hdigit c h)
  · exact .inr (List.eq_of_mem_replicate h)

theorem fromUrl_toUrl {s : List Char} (h : ∀ c ∈ s, Digit c ∨ c = '=') :
    (encodeUtf8 (s.map toUrl)).map fromUrl = encodeUtf8 s := by
  induction s with
  | nil => rfl
  | cons c s ih =>
    have hc : (String.utf8EncodeChar (toUrl c)).map fromUrl = String.utf8EncodeChar c := by
      rcases h c List.mem_cons_self with hd | rfl
      · exact hd.toUrl.2.2.2
      · decide
    rw [List.map_cons, encodeUtf8_cons, encodeUtf8_cons, List.map_append, hc,
      ih fun d hd => h d (List.mem_cons_of_mem c hd)]

theorem urlsafeDecode_urlsafeEncode (bs : Bytes) : urlsafeDecode (urlsafeEncode bs) = some bs := by
  have hascii : ∀ c ∈ urlsafeEncode bs, c.toNat < 128 := by
    intro c hc
    obtain ⟨d, hd, rfl⟩ := List.mem_map.mp hc
    rcases mem_encode hd with hd | rfl
    · exact hd.toUrl.1
    · decide
  rw [urlsafeDecode, encodeAscii_of_ascii hascii, Option.bind_some, urlsafeEncode,
    fromUrl_toUrl fun c hc => mem_encode hc, b64decode_encode]

/-- What is left of an encoding when its padding is stripped. -/
theorem urlsafeEncode_shape (bs : Bytes) : ∃ ds k, urlsafeEncode bs = ds ++ List.replicate k '=' ∧
    (∀ c ∈ ds, c.toNat < 128 ∧ c ≠ '=' ∧ c ≠ '.') ∧ k = (3 - bs.length % 3) % 3 ∧
      (ds.length + k) % 4 = 0 := by
  obtain ⟨ds, k, hds, hdigit, hk, hlen⟩ := encode_shape bs
  refine ⟨ds.map toUrl, k, ?_, ?_, hk, by rwa [List.length_map]⟩
  · rw [urlsafeEncode, hds, List.map_append, List.map_replicate]
    rfl
  · intro c hc
    obtain ⟨d, hd, rfl⟩ := List.mem_map.mp hc
    obtain ⟨hascii, heq, hdot, -⟩ := (hdigit d hd).toUrl
    exact ⟨hascii, heq, hdot⟩

end Base64
end SpineFormal
