import Mathlib.Data.List.Basic
import SpineFormal.Base.Numerals

/-!
# Python decimals

A finite `decimal.Decimal` is a sign, a coefficient and a power of ten; equal
numbers of different scale are different decimals. `format(d, "f")` writes the
scale out, `str` switches to an exponent outside the usual range.
-/

namespace SpineFormal

open Numerals
set_option autoImplicit false

/-- `± coeff * 10 ^ exp`. -/
structure PyDecimal where
  neg : Bool
  coeff : Nat
  exp : Int
  deriving DecidableEq

/-- Digits with a decimal point before the last `scale` of them. -/
def pointText (scale n : Nat) : List Char :=
  Nat.toDigits 10 (n / 10 ^ scale) ++ '.' :: fixed 10 scale (n % 10 ^ scale)

/-- `format(d, "f")`. -/
def PyDecimal.formatF (d : PyDecimal) : List Char :=
  match d.exp with
  | .ofNat e => signText d.neg ++ Nat.toDigits 10 (d.coeff * 10 ^ e)
  | .negSucc k => signText d.neg ++ pointText (k + 1) d.coeff

/-- `str(d)`. -/
def PyDecimal.str (d : PyDecimal) : List Char :=
  let digits := Nat.toDigits 10 d.coeff
  let left : Int := digits.length + d.exp
  let place : Int := if d.exp ≤ 0 ∧ -6 < left then left else 1
  let body :=
    if place ≤ 0 then '0' :: '.' :: (List.replicate place.natAbs '0' ++ digits)
    else if digits.length ≤ place.natAbs then
      digits ++ List.replicate (place.natAbs - digits.length) '0'
    else digits.take place.natAbs ++ '.' :: digits.drop place.natAbs
  let exponent :=
    if left = place then []
    else 'E' :: (if left < place then '-' else '+') :: Nat.toDigits 10 (left - place).natAbs
  signText d.neg ++ (body ++ exponent)

/-- A decimal that is not below zero; `-0` is one. -/
def PyDecimal.Nonneg (d : PyDecimal) : Prop := d.neg = true → d.coeff = 0

instance (d : PyDecimal) : Decidable d.Nonneg :=
  inferInstanceAs (Decidable (d.neg = true → d.coeff = 0))

example : (PyDecimal.mk false 1 (-7)).str = "1E-7".toList ∧
    (PyDecimal.mk false 12 2).str = "1.2E+3".toList ∧
    (PyDecimal.mk true 0 (-2)).str = "-0.00".toList ∧
    (PyDecimal.mk false 12 2).formatF = "1200".toList := by
  decide

theorem toDigits_injective {m n : Nat} (h : Nat.toDigits 10 m = Nat.toDigits 10 n) : m = n := by
  rw [← Nat.ofDigitChars_ten_toDigits (n := m), h, Nat.ofDigitChars_ten_toDigits]

theorem signText_append_inj {neg neg' : Bool} {ds ds' : List Char} (hds : ∀ c ∈ ds, c.isDigit = true)
    (hds' : ∀ c ∈ ds', c.isDigit = true) (h : signText neg ++ ds = signText neg' ++ ds') :
    neg = neg' ∧ ds = ds' := by
  cases neg <;> cases neg'
  · exact ⟨rfl, h⟩
  · obtain rfl : ds = '-' :: ds' := h
    exact absurd (hds '-' List.mem_cons_self) (by decide)
  · obtain rfl : '-' :: ds = ds' := h
    exact absurd ( hds' '-' List.mem_cons_self) (by decide)
  · exact ⟨rfl, (List.cons.inj h).2⟩

theorem PyDecimal.formatF_inj {d d' : PyDecimal} (h : d.formatF = d'.formatF) (hexp : d'.exp < 0) :
    d = d' := by
  obtain ⟨neg, c, e⟩ := d
  obtain ⟨neg', c', e'⟩ := d'
  obtain ⟨k', rfl⟩ : ∃ k', e' = .negSucc k' := Int.eq_negSucc_of_lt_zero hexp
  have hpoint : ∀ {ds : List Char}, (∀ c ∈ ds, c.isDigit = true) → '.' ∉ ds := by
    intro ds hds hmem
    exact absurd (hds '.' hmem) (by decide)
  have hsign : ∀ {b : Bool} {ds : List Char}, (∀ c ∈ ds, c.isDigit = true) →
      '.' ∉ signText b ++ ds := by
    intro b ds hds hmem
    rcases List.mem_append.mp hmem with hmem | hmem
    · cases b <;> simp [signText] at hmem
    · exact hpoint hds hmem
  cases e with
  | ofNat e =>
    have hmem : '.' ∈ (PyDecimal.mk neg' c' (.negSucc k')).formatF := by
      simp [formatF, pointText]
    rw [← h] at hmem
    exact absurd hmem (hsign isDigit_of_mem_toDigits)
  | negSucc k =>
    simp only [formatF, pointText, ← List.append_assoc] at h
    obtain ⟨hleft, _, hright⟩ := (List.append_cons_inj_of_notMem (hsign isDigit_of_mem_toDigits)
      (hpoint isDigit_of_mem_fixed)).mp h
    obtain rfl : k = k' := by simpa using congrArg List.length hright
    obtain ⟨rfl, hdigits⟩ :=
      signText_append_inj isDigit_of_mem_toDigits isDigit_of_mem_toDigits hleft
    have hpos : 0 < 10 ^ (k + 1) := Nat.pow_pos (by decide)
    have hquot := toDigits_injective hdigits
    have hrem := fixed_injective (by decide) (by decide) (Nat.mod_lt c hpos) (Nat.mod_lt c' hpos) hright
    rw [← Nat.div_add_mod c (10 ^ (k + 1)), hquot, hrem, Nat.div_add_mod]

end SpineFormal
