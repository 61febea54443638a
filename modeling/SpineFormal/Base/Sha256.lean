import Mathlib.Data.Set.Function
import SpineFormal.Base.Numerals

/-!
# SHA-256 and its text forms

The hash itself (FIPS 180-4), executable on lists of bytes, together with
`str.encode("utf-8")`, `bytes.hex()` and `hexdigest()`. Nothing below reasons
about the compression function: proofs use the digest's width, the injectivity
of the two text codecs, and an explicit no-collision hypothesis on the messages
that occur.
-/

namespace SpineFormal

set_option autoImplicit false

abbrev Bytes := List UInt8

namespace Sha256

open Numerals

abbrev Word := BitVec 32

def roundConstants : List Word := [
  0x428a2f98, 0x71374491, 0xb5c0fbcf, 0xe9b5dba5, 0x3956c25b, 0x59f111f1, 0x923f82a4, 0xab1c5ed5,
  0xd807aa98, 0x12835b01, 0x243185be, 0x550c7dc3, 0x72be5d74, 0x80deb1fe, 0x9bdc06a7, 0xc19bf174,
  0xe49b69c1, 0xefbe4786, 0x0fc19dc6, 0x240ca1cc, 0x2de92c6f, 0x4a7484aa, 0x5cb0a9dc, 0x76f988da,
  0x983e5152, 0xa831c66d, 0xb00327c8, 0xbf597fc7, 0xc6e00bf3, 0xd5a79147, 0x06ca6351, 0x14292967,
  0x27b70a85, 0x2e1b2138, 0x4d2c6dfc, 0x53380d13, 0x650a7354, 0x766a0abb, 0x81c2c92e, 0x92722c85,
  0xa2bfe8a1, 0xa81a664b, 0xc24b8b70, 0xc76c51a3, 0xd192e819, 0xd6990624, 0xf40e3585, 0x106aa070,
  0x19a4c116, 0x1e376c08, 0x2748774c, 0x34b0bcb5, 0x391c0cb3, 0x4ed8aa4a, 0x5b9cca4f, 0x682e6ff3,
  0x748f82ee, 0x78a5636f, 0x84c87814, 0x8cc70208, 0x90befffa, 0xa4506ceb, 0xbef9a3f7, 0xc67178f2]

structure State where
  (a b c d e f g h : Word)

def initial : State :=
  ⟨0x6a09e667, 0xbb67ae85, 0x3c6ef372, 0xa54ff53a, 0x510e527f, 0x9b05688c, 0x1f83d9ab, 0x5be0cd19⟩

def rotr (x : Word) (n : Nat) : Word := (x >>> n) ||| (x <<< (32 - n))
def choose (x y z : Word) : Word := (x &&& y) ^^^ (~~~x &&& z)
def majority (x y z : Word) : Word := (x &&& y) ^^^ (x &&& z) ^^^ (y &&& z)
def bigSigma0 (x : Word) : Word := rotr x 2 ^^^ rotr x 13 ^^^ rotr x 22
def bigSigma1 (x : Word) : Word := rotr x 6 ^^^ rotr x 11 ^^^ rotr x 25
def smallSigma0 (x : Word) : Word := rotr x 7 ^^^ rotr x 18 ^^^ (x >>> 3)
def smallSigma1 (x : Word) : Word := rotr x 17 ^^^ rotr x 19 ^^^ (x >>> 10)

/-- One round per constant. The schedule is a sliding window of sixteen words:
the head is consumed and the word sixteen places later is pushed at the end. -/
def rounds : List Word → List Word → State → State
  | k :: ks, w :: ws, s =>
    let t1 := s.h + bigSigma1 s.e + choose s.e s.f s.g + k + w
    let t2 := bigSigma0 s.a + majority s.a s.b s.c
    let next := smallSigma1 (ws.getD 13 0) + ws.getD 8 0 + smallSigma0 (ws.getD 0 0) + w
    rounds ks (ws ++ [next]) ⟨t1 + t2, s.a, s.b, s.c, s.d + t1, s.e, s.f, s.g⟩
  | _, _, s => s

def wordOf (bs : Bytes) : Word :=
  bs.foldl (fun acc b => (acc <<< 8) ||| BitVec.ofNat 32 b.toNat) 0

def wordsOf : Nat → Bytes → List Word
  | 0, _ => []
  | n + 1, bs => wordOf (bs.take 4) :: wordsOf n (bs.drop 4)

def compress (s : State) (block : Bytes) : State :=
  let r := rounds roundConstants (wordsOf 16 block) s
  ⟨s.a + r.a, s.b + r.b, s.c + r.c, s.d + r.d, s.e + r.e, s.f + r.f, s.g + r.g, s.h + r.h⟩

/-- `v` in `n` big-endian bytes. -/
def bigEndian (n v : Nat) : Bytes :=
  (List.range n).reverse.map fun i => UInt8.ofNat (v / 256 ^ i)

def pad (m : Bytes) : Bytes :=
  m ++ 0x80 :: (List.replicate ((119 - m.length % 64) % 64) 0 ++ bigEndian 8 (8 * m.length))

def blocks : Nat → Bytes → State → State
  | 0, _, s => s
  | n + 1, bs, s => blocks n (bs.drop 64) (compress s (bs.take 64))

def digest (s : State) : Bytes :=
  [s.a, s.b, s.c, s.d, s.e, s.f, s.g, s.h].flatMap fun w => bigEndian 4 w.toNat

end Sha256

open Numerals

/-- `hashlib.sha256(m).digest()`. -/
@[irreducible] def sha256 (m : Bytes) : Bytes :=
  Sha256.digest (Sha256.blocks ((Sha256.pad m).length / 64) (Sha256.pad m) Sha256.initial)

example : sha256 [0x61, 0x62, 0x63] =
    [0xba, 0x78, 0x16, 0xbf, 0x8f, 0x01, 0xcf, 0xea, 0x41, 0x41, 0x40, 0xde, 0x5d, 0xae, 0x22, 0x23,
     0xb0, 0x03, 0x61, 0xa3, 0x96, 0x17, 0x7a, 0x9c, 0xb4, 0x10, 0xff, 0x61, 0xf2, 0x00, 0x15, 0xad] := by
  decide +kernel

@[simp] theorem sha256_length (m : Bytes) : (sha256 m).length = 32 := by
  unfold sha256
  simp [Sha256.digest, Sha256.bigEndian]

/-- `text.encode("utf-8")`. -/
def encodeUtf8 (text : List Char) : Bytes := text.flatMap String.utf8EncodeChar

theorem encodeUtf8_injective : Function.Injective encodeUtf8 := by
  intro s t h
  have hb : s.utf8Encode = t.utf8Encode := congrArg List.toByteArray h
  have hs := List.utf8Decode?_utf8Encode (l := s)
  rw [hb, List.utf8Decode?_utf8Encode] at hs
  simpa using hs.symm

/-- Bytes as the characters of their values. -/
def latin1 (bs : Bytes) : List Char := bs.map fun b => Char.ofNat b.toNat

@[simp] theorem latin1_append (as bs : Bytes) : latin1 (as ++ bs) = latin1 as ++ latin1 bs := by
  simp [latin1]

theorem latin1_injective : Function.Injective latin1 := by
  apply List.map_injective_iff.mpr
  intro a b h
  have hvalid : ∀ c : UInt8, (Char.ofNat c.toNat).toNat = c.toNat := by
    intro c
    have hc := c.toNat_lt
    rw [Char.ofNat, dif_pos (Or.inl (by omega))]
    rfl
  have hnat : a.toNat = b.toNat := by
    rw [← hvalid a, ← hvalid b]
    exact congrArg Char.toNat h
  exact UInt8.toNat_inj.mp hnat

/-- On ASCII text a character is a byte. -/
theorem latin1_encodeUtf8 {s : List Char} (h : ∀ c ∈ s, c.toNat < 128) : latin1 (encodeUtf8 s) = s := by
  induction s with
  | nil => rfl
  | cons c s ih =>
    have hc := h c List.mem_cons_self
    have hone : String.utf8EncodeChar c = [UInt8.ofNat c.toNat] := if_pos (Nat.le_of_lt_succ hc)
    have hmod : c.toNat % 256 = c.toNat := Nat.mod_eq_of_lt (by omega)
    have htail := ih fun d hd => h d (List.mem_cons_of_mem c hd)
    rw [encodeUtf8, List.flatMap_cons, hone, ← encodeUtf8, latin1_append, htail]
    simp [latin1, hmod]

/-- `bytes.hex()`. -/
def hex (bs : Bytes) : List Char := bs.flatMap fun b => fixed 16 2 b.toNat

@[simp] theorem hex_length (bs : Bytes) : (hex bs).length = 2 * bs.length := by
  induction bs with
  | nil => rfl
  | cons b bs ih =>
    simp only [hex, List.flatMap_cons, List.length_append, fixed_length, List.length_cons] at ih ⊢
    omega

theorem hex_injective : Function.Injective hex := by
  intro as
  induction as with
  | nil =>
    intro bs h
    have := congrArg List.length h
    simp only [hex_length, List.length_nil] at this
    exact (List.length_eq_zero_iff.mp (by omega)).symm
  | cons a as ih =>
    intro bs h
    cases bs with
    | nil =>
      have := congrArg List.length h
      simp at this
    | cons b bs =>
      have hsplit := List.append_inj h (by simp)
      have ha : a.toNat < 16 ^ 2 := a.toNat_lt
      have hb : b.toNat < 16 ^ 2 := b.toNat_lt
      have hab := fixed_injective (by decide) (by decide) ha hb hsplit.1
      rw [UInt8.toNat_inj.mp hab, ih hsplit.2]

/-- `hashlib.sha256(text.encode("utf-8")).hexdigest()`. -/
def hexdigest (text : List Char) : String := String.ofList (hex (sha256 (encodeUtf8 text)))

@[simp] theorem hexdigest_toList (text : List Char) :
    (hexdigest text).toList = hex (sha256 (encodeUtf8 text)) := by
  simp [hexdigest]

theorem hexdigest_length (text : List Char) : (hexdigest text).toList.length = 64 := by
  simp

theorem hexdigest_ne_empty (text : List Char) : hexdigest text ≠ "" := by
  intro h
  have := hexdigest_length text
  simp [h] at this

/-- No two distinct members of `messages` have the same digest. This is what a
collision-free hash means for the messages a statement mentions: it holds of
the real function wherever no collision is known, unlike global injectivity. -/
def CollisionFreeOn (messages : Set Bytes) : Prop := Set.InjOn sha256 messages

theorem collisionFreeOn_same (m : Bytes) : CollisionFreeOn {m, m} := by
  simp [CollisionFreeOn]

/-- Equal hex digests of texts without a collision come from equal texts. -/
theorem hexdigest_inj {messages : Set Bytes} (hcf : CollisionFreeOn messages) {s t : List Char}
    (hs : encodeUtf8 s ∈ messages) (ht : encodeUtf8 t ∈ messages)
    (h : hexdigest s = hexdigest t) : s = t := by
  have hhex : hex (sha256 (encodeUtf8 s)) = hex (sha256 (encodeUtf8 t)) := by
    simpa using congrArg String.toList h
  exact encodeUtf8_injective (hcf hs ht (hex_injective hhex))

end SpineFormal
