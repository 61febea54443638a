import Mathlib.Data.List.Basic
import Mathlib.Tactic.Ring

/-!
# Positional numerals

Fixed-width digit strings (`%02d`, `%04x`, `%032x`) and their left-to-right
reader. One pair of definitions serves every base up to sixteen, so hexadecimal
digests, `\u` escapes, UUIDs and calendar fields share one round trip.
-/

namespace SpineFormal.Numerals

set_option autoImplicit false

/-- A property of every character of a text, checked along the text. -/
theorem forall_mem_of_all {p : Char → Prop} [DecidablePred p] {s : List Char}
    (h : s.all (fun c => decide (p c)) = true) : ∀ c ∈ s, p c := by
  intro c hc
  exact of_decide_eq_true (List.all_eq_true.mp h c hc)

/-- The value of a lower-case hexadecimal digit. -/
def digitVal (c : Char) : Option Nat :=
  if '0' ≤ c ∧ c ≤ '9' then some (c.toNat - 48)
  else if 'a' ≤ c ∧ c ≤ 'f' then some (c.toNat - 87)
  else none

theorem digitVal_digitChar : ∀ d, d < 16 → digitVal (Nat.digitChar d) = some d := by decide

/-- The `width` low digits of `n`, most significant first. -/
def fixed (base : Nat) : Nat → Nat → List Char
  | 0, _ => []
  | width + 1, n => fixed base width (n / base) ++ [Nat.digitChar (n % base)]

/-- Read exactly `width` digits, most significant first. -/
def readFixed (base : Nat) : Nat → Nat → List Char → Option (Nat × List Char)
  | 0, acc, s => some (acc, s)
  | _ + 1, _, [] => none
  | width + 1, acc, c :: s =>
    match digitVal c with
    | none => none
    | some d => if d < base then readFixed base width (acc * base + d) s else none

@[simp] theorem fixed_length (base width n : Nat) : (fixed base width n).length = width := by
  induction width generalizing n with
  | zero => rfl
  | succ width ih => simp [fixed, ih]

theorem readFixed_digit {base d : Nat} (hd : d < base) (hb : base ≤ 16) (width acc : Nat)
    (s : List Char) :
    readFixed base (width + 1) acc (Nat.digitChar d :: s) =
      readFixed base width (acc * base + d) s := by
  simp [readFixed, digitVal_digitChar d (by omega), hd]

/-- The reader is compositional: a block of `width` digits feeds the accumulator
and leaves the remaining `more` digits to be read. -/
theorem readFixed_fixed_add {base : Nat} (hpos : 0 < base) (hb : base ≤ 16)
    (width more n acc : Nat) (s : List Char) (hn : n < base ^ width) :
    readFixed base (width + more) acc (fixed base width n ++ s) =
      readFixed base more (acc * base ^ width + n) s := by
  induction width generalizing n more s with
  | zero =>
    have : n = 0 := by simpa using hn
    simp [fixed, this]
  | succ width ih =>
    have hdiv : n / base < base ^ width := by
      apply Nat.div_lt_of_lt_mul
      rwa [Nat.pow_succ, Nat.mul_comm] at hn
    have hstep := ih (more + 1) (n / base) (Nat.digitChar (n % base) :: s) hdiv
    have hacc : (acc * base ^ width + n / base) * base + n % base = acc * base ^ (width + 1) + n := by
      have hmod := Nat.div_add_mod n base
      calc (acc * base ^ width + n / base) * base + n % base
          = acc * base ^ (width + 1) + (base * (n / base) + n % base) := by ring
        _ = acc * base ^ (width + 1) + n := by rw [hmod]
    rw [show width + 1 + more = width + (more + 1) by omega]
    simp only [fixed, List.append_assoc, List.singleton_append]
    rw [hstep, readFixed_digit (Nat.mod_lt _ hpos) hb, hacc]

theorem readFixed_fixed {base : Nat} (hpos : 0 < base) (hb : base ≤ 16)
    (width n : Nat) (s : List Char) (hn : n < base ^ width) :
    readFixed base width 0 (fixed base width n ++ s) = some (n, s) := by
  have h := readFixed_fixed_add hpos hb width 0 n 0 s hn
  simpa [readFixed] using h

theorem mem_fixed {base : Nat} (hpos : 0 < base) {width n : Nat} {c : Char}
    (hc : c ∈ fixed base width n) : ∃ d, d < base ∧ c = Nat.digitChar d := by
  induction width generalizing n with
  | zero => simp [fixed] at hc
  | succ width ih =>
    simp only [fixed, List.mem_append, List.mem_singleton] at hc
    rcases hc with hc | hc
    · exact ih hc
    · exact ⟨n % base, Nat.mod_lt _ hpos, hc⟩

theorem fixed_range {base : Nat} (hpos : 0 < base) (hb : base ≤ 16) {width n : Nat} {c : Char}
    (hc : c ∈ fixed base width n) : 0x20 ≤ c.toNat ∧ c.toNat < 0x7f := by
  obtain ⟨d, hd, rfl⟩ := mem_fixed hpos hc
  have hdigits : ∀ d < 16, 0x20 ≤ (Nat.digitChar d).toNat ∧ (Nat.digitChar d).toNat < 0x7f := by
    decide
  exact hdigits d (Nat.lt_of_lt_of_le hd hb)

theorem fixed_injective {base width m n : Nat} (hpos : 0 < base) (hb : base ≤ 16)
    (hm : m < base ^ width) (hn : n < base ^ width)
    (h : fixed base width m = fixed base width n) : m = n := by
  have h1 := readFixed_fixed hpos hb width m [] hm
  rw [h, readFixed_fixed hpos hb width n [] hn] at h1
  exact (congrArg Prod.fst (Option.some.inj h1)).symm

theorem isDigit_of_mem_toDigits {n : Nat} : ∀ c ∈ Nat.toDigits 10 n, c.isDigit = true :=
  fun _ hc => Nat.isDigit_of_mem_toDigits (by decide) (by decide) hc

theorem isDigit_of_mem_fixed {width n : Nat} : ∀ c ∈ fixed 10 width n, c.isDigit = true := by
  intro c hc
  obtain ⟨d, hd, rfl⟩ := mem_fixed (by decide) hc
  simpa using hd

/-- `-` for a negative sign. -/
def signText (neg : Bool) : List Char := if neg then ['-'] else []

/-- `str(n)` for a Python integer. -/
def decimal (n : Int) : List Char :=
  match n with
  | .ofNat m => Nat.toDigits 10 m
  | .negSucc m => '-' :: Nat.toDigits 10 (m + 1)

end SpineFormal.Numerals
