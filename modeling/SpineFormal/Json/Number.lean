import SpineFormal.Base.Numerals

/-!
# JSON numbers as Python writes and reads them

An `int` is written by `str`, a `float` by its shortest decimal. A finite float
is identified with that decimal: a coefficient without trailing zeros and a
power of ten, so every float has one representation. Reading is the number
token of `json.scanner`: an integer unless a fraction or an exponent follows.
-/

namespace SpineFormal.Json

open Numerals
set_option autoImplicit false

/-- A Python float through its shortest decimal `coeff * 10 ^ exp`. -/
inductive PyFloat where
  | nan
  | inf (neg : Bool)
  | zero (neg : Bool)
  | finite (neg : Bool) (coeff : Nat) (exp : Int) (canonical : coeff % 10 ≠ 0)
  deriving DecidableEq

/-- Divide out trailing decimal zeros, counting them. -/
def stripZeros : Nat → Nat → Nat × Nat
  | 0, m => (m, 0)
  | fuel + 1, m =>
    if m % 10 = 0 then ((stripZeros fuel (m / 10)).1, (stripZeros fuel (m / 10)).2 + 1) else (m, 0)

theorem stripZeros_canonical {fuel m : Nat} (hpos : 0 < m) (hf : m ≤ fuel) :
    (stripZeros fuel m).1 % 10 ≠ 0 := by
  induction fuel generalizing m with
  | zero => omega
  | succ fuel ih =>
    unfold stripZeros
    split
    · exact ih (by omega) (by omega)
    · assumption

theorem stripZeros_mul_pow {c : Nat} (hc : c % 10 ≠ 0) (z : Nat) {fuel : Nat}
    (hf : c * 10 ^ z ≤ fuel) : stripZeros fuel (c * 10 ^ z) = (c, z) := by
  induction z generalizing fuel with
  | zero =>
    cases fuel with
    | zero => simp [stripZeros]
    | succ fuel => simp [stripZeros, hc]
  | succ z ih =>
    have hpos : 0 < c * 10 ^ z := Nat.mul_pos (by omega) (Nat.pow_pos (by decide))
    have hmul : c * 10 ^ (z + 1) = c * 10 ^ z * 10 := by rw [Nat.pow_succ, Nat.mul_assoc]
    cases fuel with
    | zero => omega
    | succ fuel =>
      have hdiv : c * 10 ^ z * 10 / 10 = c * 10 ^ z := Nat.mul_div_cancel _ (by decide)
      have hrec : stripZeros fuel (c * 10 ^ z) = (c, z) := ih (by omega)
      rw [hmul]
      simp [stripZeros, hdiv, hrec]

/-- The float nearest to `± m * 10 ^ e`; exact on the decimals `floatstr` writes. -/
def PyFloat.ofDecimal (neg : Bool) (m : Nat) (e : Int) : PyFloat :=
  if h : 0 < m then
    .finite neg (stripZeros m m).1 (e + (stripZeros m m).2) (stripZeros_canonical h (Nat.le_refl m))
  else .zero neg

theorem PyFloat.ofDecimal_mul_pow (neg : Bool) {c : Nat} (hc : c % 10 ≠ 0) (z : Nat) (e : Int) :
    PyFloat.ofDecimal neg (c * 10 ^ z) e = .finite neg c (e + z) hc := by
  have hpos : 0 < c * 10 ^ z := Nat.mul_pos (by omega) (Nat.pow_pos (by decide))
  have hs := stripZeros_mul_pow hc z (Nat.le_refl _)
  simp [PyFloat.ofDecimal, hpos, hs]

/-- The exponent suffix `e±XX`, at least two digits. -/
def exponentText (e : Int) : List Char :=
  'e' :: (if e < 0 then '-' else '+') ::
    (if e.natAbs < 10 then fixed 10 2 e.natAbs else Nat.toDigits 10 e.natAbs)

/-- `repr` of the positive decimal `0.d₁d₂… * 10 ^ point` with digits `ds`:
positional for `-4 < point ≤ 16`, scientific otherwise. -/
def shortText (ds : List Char) (point : Int) : List Char :=
  if -4 < point ∧ point ≤ 0 then '0' :: '.' :: (List.replicate point.natAbs '0' ++ ds)
  else if 0 < point ∧ point ≤ 16 then
    if ds.length ≤ point.natAbs then
      ds ++ (List.replicate (point.natAbs - ds.length) '0' ++ ['.', '0'])
    else ds.take point.natAbs ++ '.' :: ds.drop point.natAbs
  else
    ds.take 1 ++ ((if ds.length = 1 then [] else '.' :: ds.drop 1) ++ exponentText (point - 1))

/-- The encoder's `floatstr`. -/
def PyFloat.floatstr : PyFloat → List Char
  | .nan => "NaN".toList
  | .inf neg => signText neg ++ "Infinity".toList
  | .zero neg => signText neg ++ "0.0".toList
  | .finite neg c e _ =>
    signText neg ++ shortText (Nat.toDigits 10 c) ((Nat.toDigits 10 c).length + e)

/-! ## Reading -/

/-- A number token is either an integer or a float. -/
inductive Number where
  | int (n : Int)
  | float (x : PyFloat)

/-- `0` or a digit string without leading zero. -/
def intPart : List Char → Option (List Char × List Char)
  | [] => none
  | '0' :: s => some (['0'], s)
  | c :: s =>
    if c.isDigit then some (c :: s.takeWhile Char.isDigit, s.dropWhile Char.isDigit) else none

/-- The digits after a decimal point; a point without digits is not consumed. -/
def fracPart : List Char → List Char × List Char
  | '.' :: s =>
    if s.takeWhile Char.isDigit = [] then ([], '.' :: s)
    else (s.takeWhile Char.isDigit, s.dropWhile Char.isDigit)
  | s => ([], s)

def signedDigits : List Char → Bool × List Char
  | '-' :: s => (true, s)
  | '+' :: s => (false, s)
  | s => (false, s)

def expPart : List Char → Option Int × List Char
  | [] => (none, [])
  | c :: s =>
    if (c = 'e' ∨ c = 'E') ∧ (signedDigits s).2.takeWhile Char.isDigit ≠ [] then
      let n : Int := Nat.ofDigitChars 10 ((signedDigits s).2.takeWhile Char.isDigit) 0
      (some (if (signedDigits s).1 then -n else n), (signedDigits s).2.dropWhile Char.isDigit)
    else (none, c :: s)

/-- The unsigned number token at the head of `s`. -/
def unsignedNumber (neg : Bool) (s : List Char) : Option (Number × List Char) :=
  match intPart s with
  | none => none
  | some (i, s) =>
    let f := fracPart s
    let e := expPart f.2
    let m := Nat.ofDigitChars 10 (i ++ f.1) 0
    if f.1 = [] ∧ e.1 = none then some (.int (if neg then -m else m), e.2)
    else some (.float (.ofDecimal neg m (e.1.getD 0 - f.1.length)), e.2)

def number : List Char → Option (Number × List Char)
  | '-' :: s => unsignedNumber true s
  | s => unsignedNumber false s

/-! ## Round trips -/

def NoDigitHead (rest : List Char) : Prop := ∀ c ∈ rest.head?, c.isDigit = false

/-- What may follow a number token without extending it. -/
def NumEnd (rest : List Char) : Prop :=
  ∀ c ∈ rest.head?, c.isDigit = false ∧ c ≠ '.' ∧ c ≠ 'e' ∧ c ≠ 'E'

theorem NumEnd.noDigitHead {rest : List Char} (h : NumEnd rest) : NoDigitHead rest :=
  fun c hc => (h c hc).1

theorem numEnd_nil : NumEnd [] := by simp [NumEnd]

theorem numEnd_cons {c : Char} (h : c = ',' ∨ c = ']' ∨ c = '}' ∨ c = '\n') (rest : List Char) :
    NumEnd (c :: rest) := by
  intro d hd
  obtain rfl : c = d := by simpa using hd
  rcases h with rfl | rfl | rfl | rfl <;> decide

theorem takeWhile_digits {ds rest : List Char} (hd : ∀ c ∈ ds, c.isDigit = true)
    (hr : NoDigitHead rest) : (ds ++ rest).takeWhile Char.isDigit = ds := by
  have hnil : rest.takeWhile Char.isDigit = [] := by
    cases rest with
    | nil => rfl
    | cons c rest => simp [hr c rfl]
  rw [List.takeWhile_append_of_pos hd, hnil, List.append_nil]

theorem dropWhile_digits {ds rest : List Char} (hd : ∀ c ∈ ds, c.isDigit = true)
    (hr : NoDigitHead rest) : (ds ++ rest).dropWhile Char.isDigit = rest := by
  rw [List.dropWhile_append_of_pos hd]
  cases rest with
  | nil => rfl
  | cons c rest => simp [hr c rfl]

/-- Digit strings that `intPart` reads whole: `0`, or no leading zero. -/
def IntDigits (ds : List Char) : Prop :=
  ds = ['0'] ∨ ∃ c t, ds = c :: t ∧ c ≠ '0' ∧ ∀ d ∈ ds, d.isDigit = true

theorem intPart_append {ds rest : List Char} (hds : IntDigits ds) (hr : NoDigitHead rest) :
    intPart (ds ++ rest) = some (ds, rest) := by
  rcases hds with rfl | ⟨c, t, rfl, hc, hd⟩
  · rfl
  · have ht : ∀ d ∈ t, d.isDigit = true := fun d h => hd d (List.mem_cons_of_mem c h)
    simp only [List.cons_append]
    rw [intPart.eq_def]
    split
    · contradiction
    · rename_i heq
      exact absurd (List.cons.inj heq).1 hc
    · rename_i heq
      obtain ⟨rfl, rfl⟩ := List.cons.inj heq
      rw [if_pos (hd c List.mem_cons_self), takeWhile_digits ht hr, dropWhile_digits ht hr]

theorem toDigits_head {n : Nat} (hn : 0 < n) :
    ∃ c t, Nat.toDigits 10 n = c :: t ∧ c ≠ '0' := by
  induction n using Nat.strongRecOn with
  | ind n ih =>
    by_cases hlt : n < 10
    · refine ⟨Nat.digitChar n, [], Nat.toDigits_of_lt_base hlt, ?_⟩
      simpa using (by omega : n ≠ 0)
    · obtain ⟨c, t, ht, hc⟩ := ih (n / 10) (by omega) (by omega)
      rw [Nat.toDigits_of_base_le (by decide) (by omega), ht]
      exact ⟨c, t ++ [Nat.digitChar (n % 10)], rfl, hc⟩

theorem intDigits_toDigits (n : Nat) : IntDigits (Nat.toDigits 10 n) := by
  rcases Nat.eq_zero_or_pos n with rfl | hn
  · exact Or.inl (Nat.toDigits_zero 10)
  · obtain ⟨c, t, ht, hc⟩ := toDigits_head hn
    exact Or.inr ⟨c, t, ht, hc, isDigit_of_mem_toDigits⟩

theorem fracPart_none {rest : List Char} (h : ∀ c ∈ rest.head?, c ≠ '.') :
    fracPart rest = ([], rest) := by
  rw [fracPart.eq_def]
  split
  · exact absurd rfl (h '.' rfl)
  · rfl

theorem fracPart_digits {ds rest : List Char} (hne : ds ≠ [])
    (hd : ∀ c ∈ ds, c.isDigit = true) (hr : NoDigitHead rest) :
    fracPart ('.' :: (ds ++ rest)) = (ds, rest) := by
  simp [fracPart, takeWhile_digits hd hr, dropWhile_digits hd hr, hne]

theorem expPart_none {rest : List Char} (h : ∀ c ∈ rest.head?, c ≠ 'e' ∧ c ≠ 'E') :
    expPart rest = (none, rest) := by
  cases rest with
  | nil => rfl
  | cons c rest => simp [expPart, (h c rfl).1, (h c rfl).2]

theorem ofDigitChars_fixed_two {n : Nat} (hn : n < 10) :
    Nat.ofDigitChars 10 (fixed 10 2 n) 0 = n := by
  have hall : ∀ n, n < 10 → Nat.ofDigitChars 10 (fixed 10 2 n) 0 = n := by decide
  exact hall n hn

theorem expPart_exponentText (e : Int) {rest : List Char} (hr : NoDigitHead rest) :
    expPart (exponentText e ++ rest) = (some e, rest) := by
  obtain ⟨ds, hds, hne, hdig, hval⟩ : ∃ ds,
      ds = (if e.natAbs < 10 then fixed 10 2 e.natAbs else Nat.toDigits 10 e.natAbs) ∧ ds ≠ [] ∧
      (∀ c ∈ ds, c.isDigit = true) ∧ Nat.ofDigitChars 10 ds 0 = e.natAbs := by
    by_cases hlt : e.natAbs < 10
    · refine ⟨fixed 10 2 e.natAbs, by rw [if_pos hlt], ?_, isDigit_of_mem_fixed,
        ofDigitChars_fixed_two hlt⟩
      exact List.ne_nil_of_length_eq_add_one (fixed_length 10 2 _)
    · exact ⟨Nat.toDigits 10 e.natAbs, by rw [if_neg hlt], Nat.toDigits_ne_nil,
        isDigit_of_mem_toDigits, Nat.ofDigitChars_ten_toDigits⟩
  by_cases hneg : e < 0
  · simp only [exponentText, if_pos hneg, ← hds, List.cons_append, expPart, signedDigits]
    simp only [true_or, takeWhile_digits hdig hr, dropWhile_digits hdig hr, hval, hne, ne_eq,
      not_false_eq_true, and_self, if_true]
    rw [show -(e.natAbs : Int) = e by omega]
  · simp only [exponentText, if_neg hneg, ← hds, List.cons_append, expPart, signedDigits]
    simp only [true_or, takeWhile_digits hdig hr, dropWhile_digits hdig hr, hval, hne, ne_eq,
      not_false_eq_true, and_self, if_true]
    rw [show (e.natAbs : Int) = e by omega]
    rfl

/-- Every spelling of a float token: integer digits, an optional fraction, an
optional exponent, at least one of the two present. -/
theorem unsignedNumber_float (neg : Bool) {i f : List Char} {e : Option Int} {rest : List Char}
    (hi : IntDigits i) (hf : ∀ c ∈ f, c.isDigit = true) (hfe : f ≠ [] ∨ e ≠ none)
    (hr : NumEnd rest) :
    unsignedNumber neg (i ++ ((if f = [] then [] else '.' :: f) ++
        ((e.map exponentText).getD [] ++ rest))) =
      some (.float (.ofDecimal neg (Nat.ofDigitChars 10 (i ++ f) 0) (e.getD 0 - f.length)), rest) := by
  have hexp : expPart ((e.map exponentText).getD [] ++ rest) = (e, rest) := by
    cases e with
    | none => exact expPart_none fun c hc => (hr c hc).2.2
    | some e => exact expPart_exponentText e hr.noDigitHead
  have htail : NoDigitHead ((e.map exponentText).getD [] ++ rest) := by
    cases e with
    | none => exact hr.noDigitHead
    | some e =>
      intro c hc
      obtain rfl : 'e' = c := by simpa [exponentText] using hc
      rfl
  have hdot : ∀ c ∈ ((e.map exponentText).getD [] ++ rest).head?, c ≠ '.' := by
    cases e with
    | none => exact fun c hc => (hr c hc).2.1
    | some e =>
      intro c hc
      obtain rfl : 'e' = c := by simpa [exponentText] using hc
      decide
  by_cases hnil : f = []
  · subst hnil
    have he : e ≠ none := by simpa using hfe
    simp only [unsignedNumber, if_true, List.nil_append, intPart_append hi htail,
      fracPart_none hdot, hexp, he, and_false, if_false]
  · have hpoint : NoDigitHead ('.' :: (f ++ ((e.map exponentText).getD [] ++ rest))) := by
      intro c hc
      obtain rfl : '.' = c := by simpa using hc
      rfl
    simp only [unsignedNumber, List.cons_append, intPart_append hi hpoint,
      fracPart_digits hnil hf htail, hexp, hnil, false_and, if_false]

theorem unsignedNumber_int (neg : Bool) (n : Nat) {rest : List Char} (hr : NumEnd rest) :
    unsignedNumber neg (Nat.toDigits 10 n ++ rest) =
      some (.int (if neg then -(n : Int) else n), rest) := by
  simp only [unsignedNumber, intPart_append (intDigits_toDigits n) hr.noDigitHead,
    fracPart_none fun c hc => (hr c hc).2.1, expPart_none fun c hc => (hr c hc).2.2,
    List.append_nil, Nat.ofDigitChars_ten_toDigits, and_self, if_true]

theorem IntDigits.head_ne {ds : List Char} (h : IntDigits ds) {c : Char} (hc : c.isDigit = false) :
    ∀ d ∈ ds.head?, d ≠ c := by
  intro d hd
  rcases h with rfl | ⟨a, t, rfl, _, hdig⟩
  · obtain rfl : '0' = d := by simpa using hd
    rintro rfl
    exact absurd hc (by decide)
  · obtain rfl : a = d := by simpa using hd
    rintro rfl
    simp [hdig a List.mem_cons_self] at hc

theorem number_of_head {s : List Char} (h : ∀ c ∈ s.head?, c ≠ '-') :
    number s = unsignedNumber false s := by
  rw [number.eq_def]
  split
  · exact absurd rfl (h '-' rfl)
  · rfl

theorem number_signText (neg : Bool) {s : List Char} (h : ∀ c ∈ s.head?, c ≠ '-') :
    number (signText neg ++ s) = unsignedNumber neg s := by
  cases neg with
  | false => exact number_of_head h
  | true => rfl

theorem IntDigits.append_head_ne {ds : List Char} (h : IntDigits ds) (s : List Char) :
    ∀ c ∈ (ds ++ s).head?, c ≠ '-' := by
  intro c hc
  have hne : ds ≠ [] := by
    rcases h with rfl | ⟨a, t, rfl, _, _⟩ <;> simp
  rw [List.head?_append_of_ne_nil _ hne] at hc
  exact h.head_ne (c := '-') (by decide) c hc

theorem number_decimal (n : Int) {rest : List Char} (hr : NumEnd rest) :
    number (decimal n ++ rest) = some (.int n, rest) := by
  cases n with
  | ofNat m =>
    have h := number_signText false ((intDigits_toDigits m).append_head_ne rest)
    simpa [signText, decimal, unsignedNumber_int false m hr] using h
  | negSucc m => exact unsignedNumber_int true (m + 1) hr

/-- Prefixing zeros to a numeral does not change its value. -/
theorem ofDigitChars_zeros_append (k : Nat) (ds : List Char) :
    Nat.ofDigitChars 10 ('0' :: (List.replicate k '0' ++ ds)) 0 = Nat.ofDigitChars 10 ds 0 := by
  rw [Nat.ofDigitChars_cons, Nat.ofDigitChars_append]
  simp

theorem ofDigitChars_append_zeros (ds : List Char) (k : Nat) :
    Nat.ofDigitChars 10 (ds ++ List.replicate k '0') 0 = Nat.ofDigitChars 10 ds 0 * 10 ^ k := by
  rw [Nat.ofDigitChars_append, Nat.ofDigitChars_replicate_zero, Nat.mul_comm]

theorem mem_replicate_isDigit (k : Nat) : ∀ c ∈ List.replicate k '0', c.isDigit = true := by
  intro c hc
  obtain rfl := List.eq_of_mem_replicate hc
  rfl

theorem intDigits_prefix {c k : Nat} (hc : 0 < c) (hk : 0 < k) :
    IntDigits ((Nat.toDigits 10 c).take k) := by
  obtain ⟨a, t, ht, ha⟩ := toDigits_head hc
  obtain ⟨k, rfl⟩ := Nat.exists_eq_succ_of_ne_zero (by omega : k ≠ 0)
  refine Or.inr ⟨a, t.take k, by simp [ht], ha, ?_⟩
  exact fun d hd => isDigit_of_mem_toDigits d (List.mem_of_mem_take hd)

theorem intDigits_append_zeros {c : Nat} (hc : 0 < c) (k : Nat) :
    IntDigits (Nat.toDigits 10 c ++ List.replicate k '0') := by
  obtain ⟨a, t, ht, ha⟩ := toDigits_head hc
  refine Or.inr ⟨a, t ++ List.replicate k '0', by simp [ht], ha, ?_⟩
  intro d hd
  rcases List.mem_append.mp hd with hd | hd
  · exact isDigit_of_mem_toDigits d hd
  · exact mem_replicate_isDigit k d hd

theorem PyFloat.ofDecimal_self (neg : Bool) {c : Nat} (hc : c % 10 ≠ 0) {e e' : Int} (he : e' = e) :
    PyFloat.ofDecimal neg c e' = .finite neg c e hc := by
  subst he
  simpa using PyFloat.ofDecimal_mul_pow neg hc 0 e'

/-- Each shape of `shortText` is a float token, and its digits and exponent give
the canonical decimal back. -/
theorem shortText_shape {c : Nat} (hc : c % 10 ≠ 0) (e : Int) :
    ∃ i f x, shortText (Nat.toDigits 10 c) ((Nat.toDigits 10 c).length + e) =
        i ++ ((if f = [] then [] else '.' :: f) ++ (Option.map exponentText x).getD []) ∧
      IntDigits i ∧ (∀ d ∈ f, d.isDigit = true) ∧ (f ≠ [] ∨ x ≠ none) ∧
      ∀ neg, PyFloat.ofDecimal neg (Nat.ofDigitChars 10 (i ++ f) 0) (x.getD 0 - f.length) =
        .finite neg c e hc := by
  have hpos : 0 < c := by omega
  have hlen : 0 < (Nat.toDigits 10 c).length := Nat.length_toDigits_pos
  have hne : Nat.toDigits 10 c ≠ [] := Nat.toDigits_ne_nil
  have hval : Nat.ofDigitChars 10 (Nat.toDigits 10 c) 0 = c := Nat.ofDigitChars_ten_toDigits
  unfold shortText
  split
  · -- 0.000ddd
    rename_i hp
    refine ⟨['0'], List.replicate ((Nat.toDigits 10 c).length + e).natAbs '0' ++ Nat.toDigits 10 c,
      none, by simp [hne], Or.inl rfl, ?_, Or.inl (by simp [hne]), fun neg => ?_⟩
    · intro d hd
      rcases List.mem_append.mp hd with hd | hd
      · exact mem_replicate_isDigit _ d hd
      · exact isDigit_of_mem_toDigits d hd
    · rw [List.singleton_append, ofDigitChars_zeros_append, hval]
      apply PyFloat.ofDecimal_self
      simp only [Option.getD_none, List.length_append, List.length_replicate]
      omega
  · split
    · split
      · -- ddd000.0
        rename_i hp hle
        refine ⟨Nat.toDigits 10 c ++ List.replicate
            (((Nat.toDigits 10 c).length + e).natAbs - (Nat.toDigits 10 c).length) '0',
          ['0'], none, by simp, intDigits_append_zeros hpos _, by simp, Or.inl (by simp), fun neg => ?_⟩
        rw [List.append_assoc, ← List.replicate_succ', ofDigitChars_append_zeros, hval,
          PyFloat.ofDecimal_mul_pow neg hc]
        congr 1
        simp only [Option.getD_none, List.length_singleton]
        omega
      · -- dd.ddd
        rename_i hp hlt
        have hdrop : (Nat.toDigits 10 c).drop ((Nat.toDigits 10 c).length + e).natAbs ≠ [] := by
          rw [ne_eq, List.drop_eq_nil_iff]
          omega
        refine ⟨(Nat.toDigits 10 c).take ((Nat.toDigits 10 c).length + e).natAbs,
          (Nat.toDigits 10 c).drop ((Nat.toDigits 10 c).length + e).natAbs, none,
          by rw [if_neg hdrop]; simp, intDigits_prefix hpos (by omega),
          fun d hd => isDigit_of_mem_toDigits d (List.mem_of_mem_drop hd), Or.inl hdrop, fun neg => ?_⟩
        rw [List.take_append_drop, hval]
        apply PyFloat.ofDecimal_self
        simp only [Option.getD_none, List.length_drop]
        omega
    · -- d.ddde±XX
      refine ⟨(Nat.toDigits 10 c).take 1, (Nat.toDigits 10 c).drop 1,
        some ((Nat.toDigits 10 c).length + e - 1), ?_, intDigits_prefix hpos (by decide),
        fun d hd => isDigit_of_mem_toDigits d (List.mem_of_mem_drop hd), Or.inr (by simp), fun neg => ?_⟩
      · have hiff : (Nat.toDigits 10 c).drop 1 = [] ↔ (Nat.toDigits 10 c).length = 1 := by
          rw [List.drop_eq_nil_iff]
          omega
        simp only [hiff, Option.map_some, Option.getD_some]
      · rw [List.take_append_drop, hval]
        apply PyFloat.ofDecimal_self
        simp only [Option.getD_some, List.length_drop]
        omega

/-- A finite float is read back from its `floatstr`. -/
theorem number_floatstr (neg : Bool) {c : Nat} (e : Int) (hc : c % 10 ≠ 0) {rest : List Char}
    (hr : NumEnd rest) :
    number ((PyFloat.finite neg c e hc).floatstr ++ rest) =
      some (.float (.finite neg c e hc), rest) := by
  obtain ⟨i, f, x, htext, hi, hf, hfx, hback⟩ := shortText_shape hc e
  have htail := unsignedNumber_float neg hi hf hfx hr
  simp only [PyFloat.floatstr, htext, List.append_assoc]
  rw [number_signText neg (hi.append_head_ne _), htail, hback neg]

theorem number_floatstr_zero (neg : Bool) {rest : List Char} (hr : NumEnd rest) :
    number ((PyFloat.zero neg).floatstr ++ rest) = some (.float (.zero neg), rest) := by
  have h := unsignedNumber_float neg (i := ['0']) (f := ['0']) (e := none) (Or.inl rfl) (by simp)
    (Or.inl (by simp)) hr
  have htext : (PyFloat.zero neg).floatstr ++ rest = signText neg ++ (['0'] ++ ('.' :: '0' :: rest)) := by
    simp [PyFloat.floatstr]
  have hzero : PyFloat.ofDecimal neg (Nat.ofDigitChars 10 (['0'] ++ ['0']) 0) (-1) = .zero neg := rfl
  rw [htext, number_signText neg (by simp), ← hzero]
  simpa using h

end SpineFormal.Json
