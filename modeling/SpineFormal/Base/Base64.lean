import Mathlib.Data.List.Basic
import SpineFormal.Base.Sha256

/-!
# Base64

`base64.b64encode` and `base64.b64decode(..., validate=True)`: three bytes are
four digits in base 64, a shorter rest is padded. Decoding ignores the bits that
padding leaves over, so only one direction of the round trip holds.
-/

namespace SpineFormal.Base64

set_option autoImplicit false

def digit (n : Nat) : Char :=
  if n < 26 then Char.ofNat (65 + n)
  else if n < 52 then Char.ofNat (71 + n)
  else if n < 62 then Char.ofNat (n - 4)
  else if n = 62 then '+' else '/'

def digitVal (c : Char) : Option Nat :=
  if 'A' ≤ c ∧ c ≤ 'Z' then some (c.toNat - 65)
  else if 'a' ≤ c ∧ c ≤ 'z' then some (c.toNat - 71)
  else if '0' ≤ c ∧ c ≤ '9' then some (c.toNat + 4)
  else if c = '+' then some 62
  else if c = '/' then some 63
  else none

theorem digitVal_digit : ∀ n, n < 64 → digitVal (digit n) = some n := by decide +kernel

theorem digit_ne_pad : ∀ n, n < 64 → digit n ≠ '=' := by decide +kernel

def encode : Bytes → List Char
  | a :: b :: c :: rest =>
    digit (a.toNat / 4) :: digit (a.toNat % 4 * 16 + b.toNat / 16) ::
      digit (b.toNat % 16 * 4 + c.toNat / 64) :: digit (c.toNat % 64) :: encode rest
  | [a, b] =>
    [digit (a.toNat / 4), digit (a.toNat % 4 * 16 + b.toNat / 16), digit (b.toNat % 16 * 4), '=']
  | [a] => [digit (a.toNat / 4), digit (a.toNat % 4 * 16), '=', '=']
  | [] => []

/-- Padding is accepted in the last group only. -/
def decode : List Char → Option Bytes
  | [] => some []
  | a :: b :: c :: d :: rest => do
    let x ← digitVal a
    let y ← digitVal b
    if c = '=' ∧ d = '=' ∧ rest = [] then
      return [UInt8.ofNat (x * 4 + y / 16)]
    let z ← digitVal c
    if d = '=' ∧ rest = [] then
      return [UInt8.ofNat (x * 4 + y / 16), UInt8.ofNat (y % 16 * 16 + z / 4)]
    let w ← digitVal d
    let bs ← decode rest
    return UInt8.ofNat (x * 4 + y / 16) :: UInt8.ofNat (y % 16 * 16 + z / 4) ::
      UInt8.ofNat (z % 4 * 64 + w) :: bs
  | _ => none

theorem first_byte (a : UInt8) {n : Nat} (hn : n < 16) :
    UInt8.ofNat (a.toNat / 4 * 4 + (a.toNat % 4 * 16 + n) / 16) = a := by
  have hlt := a.toNat_lt
  rw [show a.toNat / 4 * 4 + (a.toNat % 4 * 16 + n) / 16 = a.toNat by omega, UInt8.ofNat_toNat]

theorem second_byte (b : UInt8) {m n : Nat} (hn : n < 4) :
    UInt8.ofNat ((m * 16 + b.toNat / 16) % 16 * 16 + (b.toNat % 16 * 4 + n) / 4) = b := by
  have hlt := b.toNat_lt
  rw [show (m * 16 + b.toNat / 16) % 16 * 16 + (b.toNat % 16 * 4 + n) / 4 = b.toNat by omega,
    UInt8.ofNat_toNat]

theorem third_byte (c : UInt8) (m : Nat) :
    UInt8.ofNat ((m * 4 + c.toNat / 64) % 4 * 64 + c.toNat % 64) = c := by
  have hlt := c.toNat_lt
  rw [show (m * 4 + c.toNat / 64) % 4 * 64 + c.toNat % 64 = c.toNat by omega, UInt8.ofNat_toNat]

theorem decode_encode (bs : Bytes) : decode (encode bs) = some bs := by
  induction bs using encode.induct with
  | case1 a b c rest ih =>
    have ha := a.toNat_lt
    have hb := b.toNat_lt
    have hc := c.toNat_lt
    simp only [encode, decode, digitVal_digit _ (show a.toNat / 4 < 64 by omega),
      digitVal_digit _ (show a.toNat % 4 * 16 + b.toNat / 16 < 64 by omega),
      digitVal_digit _ (show b.toNat % 16 * 4 + c.toNat / 64 < 64 by omega),
      digitVal_digit _ (show c.toNat % 64 < 64 by omega),
      digit_ne_pad _ (show b.toNat % 16 * 4 + c.toNat / 64 < 64 by omega),
      digit_ne_pad _ (show c.toNat % 64 < 64 by omega), false_and, if_false, ih,
      Option.bind_eq_bind, Option.bind_some, Option.pure_def,
      first_byte a (show b.toNat / 16 < 16 by omega), second_byte b (show c.toNat / 64 < 4 by omega),
      third_byte]
  | case2 a b =>
    have ha := a.toNat_lt
    have hb := b.toNat_lt
    have hlast := second_byte b (m := a.toNat % 4) (show 0 < 4 by decide)
    rw [Nat.add_zero] at hlast
    simp only [encode, decode, digitVal_digit _ (show a.toNat / 4 < 64 by omega),
      digitVal_digit _ (show a.toNat % 4 * 16 + b.toNat / 16 < 64 by omega),
      digitVal_digit _ (show b.toNat % 16 * 4 < 64 by omega),
      digit_ne_pad _ (show b.toNat % 16 * 4 < 64 by omega), false_and, if_false, true_and, if_true,
      Option.bind_eq_bind, Option.bind_some, Option.pure_def,
      first_byte a (show b.toNat / 16 < 16 by omega), hlast]
  | case3 a =>
    have ha := a.toNat_lt
    have hlast := first_byte a (show 0 < 16 by decide)
    rw [Nat.add_zero] at hlast
    simp only [encode, decode, digitVal_digit _ (show a.toNat / 4 < 64 by omega),
      digitVal_digit _ (show a.toNat % 4 * 16 < 64 by omega), true_and, if_true,
      Option.bind_eq_bind, Option.bind_some, Option.pure_def, hlast]
  | case4 => rfl

theorem encode_eq_nil {bs : Bytes} : encode bs = [] ↔ bs = [] := by
  constructor
  · intro h
    have hd := decode_encode bs
    rw [h] at hd
    exact (Option.some.inj hd).symm
  · rintro rfl
    rfl

example : encode [0x4d, 0x61] = "TWE=".toList ∧ decode "TWFu".toList = some [0x4d, 0x61, 0x6e] := by
  decide +kernel

end SpineFormal.Base64
