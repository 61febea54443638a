import SpineFormal.Json.Scan

/-!
# Where a value ends

The parser of `json.loads` reads a value by its own characters: whatever follows the
text of a document, short of more digits, the parser stops at its end and returns the
same value. So documents can be put together as texts. A control character in a
document is white space between its tokens.
-/

namespace SpineFormal.Json

set_option autoImplicit false

/-- A character that may stand in a document. -/
def Legal (c : Char) : Prop := c.toNat < 0x20 → isWs c = true

instance (c : Char) : Decidable (Legal c) := inferInstanceAs (Decidable (_ → _))

theorem legal_of_le {c : Char} (h : 0x20 ≤ c.toNat) : Legal c := fun hlt => absurd hlt (by omega)

theorem legal_of_isWs {c : Char} (h : isWs c = true) : Legal c := fun _ => h

theorem legal_of_isDigit {c : Char} (h : c.isDigit = true) : Legal c :=
  legal_of_le (numberChar_of_isDigit h).1.1

/-! ## Strings -/

theorem hexVal_le {c : Char} {n : Nat} (h : hexVal c = some n) : 0x20 ≤ c.toNat := by
  by_contra hlt
  have hnone : ∀ k < 0x20, hexVal (Char.ofNat k) = none := by decide
  have hc := hnone c.toNat (by omega)
  rw [Char.ofNat_toNat, h] at hc
  cases hc

theorem simpleEscape_le {e c : Char} (h : simpleEscape e = some c) : e ≠ 'u' ∧ 0x20 ≤ e.toNat := by
  unfold simpleEscape at h
  split at h <;> first | contradiction | decide

theorem hex4_le {a b c d : Char} {u : Nat} (h : hex4 a b c d = some u) :
    ∀ x ∈ [a, b, c, d], 0x20 ≤ x.toNat := by
  unfold hex4 at h
  split at h
  · rename_i ha hb hc hd
    simp only [List.forall_mem_cons, List.not_mem_nil, false_imp_iff, implies_true, and_true]
    exact ⟨hexVal_le ha, hexVal_le hb, hexVal_le hc, hexVal_le hd⟩
  · contradiction

/-- The characters of a string literal, its closing quote with them. -/
theorem scanUnits_local {s rest : List Char} {us : List Nat} (h : scanUnits s = some (us, rest)) :
    ∃ c, s = c ++ rest ∧ (∀ x ∈ c, 0x20 ≤ x.toNat) ∧
      ∀ rest', scanUnits (c ++ rest') = some (us, rest') := by
  fun_induction scanUnits s generalizing us with
  | case1 | case3 | case5 | case7 => contradiction
  | case2 s =>
    obtain ⟨rfl, rfl⟩ := Prod.mk.inj (Option.some.inj h)
    exact ⟨['"'], rfl, List.forall_mem_singleton.mpr (by decide), fun _ => rfl⟩
  | case4 a b c d s u hu ih =>
    obtain ⟨⟨us', r⟩, hs, heq⟩ := Option.map_eq_some_iff.mp h
    obtain ⟨rfl, rfl⟩ := Prod.mk.inj heq
    obtain ⟨t, rfl, ht, hlocal⟩ := ih hs
    refine ⟨'\\' :: 'u' :: ([a, b, c, d] ++ t), rfl, ?_, fun rest' => ?_⟩
    · exact List.forall_mem_cons.mpr ⟨by decide, List.forall_mem_cons.mpr ⟨by decide,
        List.forall_mem_append.mpr ⟨hex4_le hu, ht⟩⟩⟩
    · simp only [List.cons_append, List.nil_append, scanUnits, hu, hlocal, Option.map_some]
  | case6 e s _ c he ih =>
    obtain ⟨⟨us', r⟩, hs, heq⟩ := Option.map_eq_some_iff.mp h
    obtain ⟨rfl, rfl⟩ := Prod.mk.inj heq
    obtain ⟨t, rfl, ht, hlocal⟩ := ih hs
    obtain ⟨hu, hle⟩ := simpleEscape_le he
    refine ⟨'\\' :: e :: t, rfl, ?_, fun rest' => ?_⟩
    · exact List.forall_mem_cons.mpr ⟨by decide, List.forall_mem_cons.mpr ⟨hle, ht⟩⟩
    · rw [List.cons_append, List.cons_append, scanUnits_simple hu he, hlocal, Option.map_some]
  | case8 c s hq _ _ hc ih =>
    obtain ⟨⟨us', r⟩, hs, heq⟩ := Option.map_eq_some_iff.mp h
    obtain ⟨rfl, rfl⟩ := Prod.mk.inj heq
    obtain ⟨t, rfl, ht, hlocal⟩ := ih hs
    obtain ⟨hb, hlo⟩ := not_or.mp hc
    refine ⟨c :: t, rfl, List.forall_mem_cons.mpr ⟨not_lt.mp hlo, ht⟩, fun rest' => ?_⟩
    rw [List.cons_append, scanUnits_plain hq hb (not_lt.mp hlo), hlocal, Option.map_some]

theorem scanString_local {s cs rest : List Char} (h : scanString s = some (cs, rest)) :
    ∃ c, s = c ++ rest ∧ (∀ x ∈ c, 0x20 ≤ x.toNat) ∧
      ∀ rest', scanString (c ++ rest') = some (cs, rest') := by
  obtain ⟨⟨us, r⟩, hs, heq⟩ := Option.map_eq_some_iff.mp h
  obtain ⟨rfl, rfl⟩ := Prod.mk.inj heq
  obtain ⟨c, rfl, hc, hlocal⟩ := scanUnits_local hs
  refine ⟨c, rfl, hc, fun rest' => ?_⟩
  rw [scanString, hlocal, Option.map_some]

/-! ## Numbers and constants -/

/-- What may follow the digits before an exponent. -/
def FracEnd (rest : List Char) : Prop := ∀ c ∈ rest.head?, c.isDigit = false ∧ c ≠ '.'

theorem FracEnd.noDigitHead {rest : List Char} (h : FracEnd rest) : NoDigitHead rest :=
  fun c hc => (h c hc).1

theorem intPart_local {s i rest : List Char} (h : intPart s = some (i, rest)) :
    s = i ++ rest ∧ IntDigits i := by
  rw [intPart.eq_def] at h
  split at h
  · contradiction
  · obtain ⟨rfl, rfl⟩ := Prod.mk.inj (Option.some.inj h)
    exact ⟨rfl, .inl rfl⟩
  · rename_i c t hzero
    split at h
    · rename_i hdigit
      obtain ⟨rfl, rfl⟩ := Prod.mk.inj (Option.some.inj h)
      refine ⟨by simp [List.takeWhile_append_dropWhile], .inr ⟨c, _, rfl, ?_, ?_⟩⟩
      · rintro rfl
        exact hzero rfl
      · exact List.forall_mem_cons.mpr ⟨hdigit, fun d hd => List.mem_takeWhile_imp hd⟩
    · contradiction

theorem fracPart_local (s : List Char) : ∃ c, s = c ++ (fracPart s).2 ∧ (∀ x ∈ c, Legal x) ∧
    (∀ rest, FracEnd rest → fracPart (c ++ rest) = ((fracPart s).1, rest)) ∧
    ∀ rest, NoDigitHead rest → NoDigitHead (c ++ rest) := by
  have hnone : ∀ {t : List Char}, fracPart t = ([], t) →
      ∃ c, t = c ++ (fracPart t).2 ∧ (∀ x ∈ c, Legal x) ∧
        (∀ rest, FracEnd rest → fracPart (c ++ rest) = ((fracPart t).1, rest)) ∧
        ∀ rest, NoDigitHead rest → NoDigitHead (c ++ rest) := by
    intro t ht
    rw [ht]
    exact ⟨[], rfl, List.forall_mem_nil _, fun rest h => fracPart_none fun c hc => (h c hc).2,
      fun rest h => h⟩
  by_cases hdot : ∃ t, s = '.' :: t
  · obtain ⟨t, rfl⟩ := hdot
    by_cases hempty : t.takeWhile Char.isDigit = []
    · exact hnone (by rw [fracPart, if_pos hempty])
    · have hdigits : ∀ d ∈ t.takeWhile Char.isDigit, d.isDigit = true :=
        fun d hd => List.mem_takeWhile_imp hd
      rw [fracPart, if_neg hempty]
      refine ⟨'.' :: t.takeWhile Char.isDigit, by simp [List.takeWhile_append_dropWhile],
        List.forall_mem_cons.mpr ⟨by decide, fun d hd => legal_of_isDigit (hdigits d hd)⟩,
        fun rest h => fracPart_digits hempty hdigits h.noDigitHead, fun rest _ c hc => ?_⟩
      obtain rfl : '.' = c := by simpa using hc
      rfl
  · refine hnone (fracPart_none ?_)
    rintro c hc rfl
    obtain ⟨t, rfl⟩ := List.head?_eq_some_iff.mp hc
    exact hdot ⟨t, rfl⟩

theorem signedDigits_local (s : List Char) : ∃ c, s = c ++ (signedDigits s).2 ∧
    (∀ x ∈ c, Legal x) ∧ ∀ {d : Char} (rest : List Char), d.isDigit = true →
      signedDigits (c ++ d :: rest) = ((signedDigits s).1, d :: rest) := by
  rw [signedDigits.eq_def]
  split
  · exact ⟨['-'], rfl, List.forall_mem_singleton.mpr (by decide), fun rest _ => rfl⟩
  · exact ⟨['+'], rfl, List.forall_mem_singleton.mpr (by decide), fun rest _ => rfl⟩
  · refine ⟨[], rfl, List.forall_mem_nil _, fun {d} rest hd => ?_⟩
    rw [List.nil_append, signedDigits.eq_def]
    split
    · rename_i heq
      exact absurd ((List.cons.inj heq).1 ▸ hd) (by decide)
    · rename_i heq
      exact absurd ((List.cons.inj heq).1 ▸ hd) (by decide)
    · rfl

theorem expPart_local (s : List Char) : ∃ c, s = c ++ (expPart s).2 ∧ (∀ x ∈ c, Legal x) ∧
    (∀ rest, NumEnd rest → expPart (c ++ rest) = ((expPart s).1, rest)) ∧
    ∀ rest, NumEnd rest → FracEnd (c ++ rest) := by
  have hnone : ∀ {t : List Char}, expPart t = (none, t) →
      ∃ c, t = c ++ (expPart t).2 ∧ (∀ x ∈ c, Legal x) ∧
        (∀ rest, NumEnd rest → expPart (c ++ rest) = ((expPart t).1, rest)) ∧
        ∀ rest, NumEnd rest → FracEnd (c ++ rest) := by
    intro t ht
    rw [ht]
    exact ⟨[], rfl, List.forall_mem_nil _, fun rest h => expPart_none fun c hc => (h c hc).2.2,
      fun rest h c hc => ⟨(h c hc).1, (h c hc).2.1⟩⟩
  cases s with
  | nil => exact hnone rfl
  | cons x t =>
    by_cases hexp : (x = 'e' ∨ x = 'E') ∧ (signedDigits t).2.takeWhile Char.isDigit ≠ []
    · obtain ⟨sign, hsign, hlegal, hsigned⟩ := signedDigits_local t
      obtain ⟨d, ds, hds⟩ := List.exists_cons_of_ne_nil hexp.2
      have hdigits : ∀ y ∈ d :: ds, y.isDigit = true := by
        rw [← hds]
        exact fun y hy => List.mem_takeWhile_imp hy
      have hx : ∀ y : Char, y = 'e' ∨ y = 'E' → Legal y ∧ y.isDigit = false ∧ y ≠ '.' := by
        rintro y (rfl | rfl) <;> decide
      rw [expPart, if_pos hexp]
      refine ⟨x :: (sign ++ d :: ds), ?_, ?_, fun rest h => ?_, fun rest _ y hy => ?_⟩
      · have hsplit := List.takeWhile_append_dropWhile (p := Char.isDigit) (l := (signedDigits t).2)
        rw [hds] at hsplit
        rw [List.cons_append, List.append_assoc, hsplit, ← hsign]
      · refine List.forall_mem_cons.mpr ⟨(hx x hexp.1).1, List.forall_mem_append.mpr
          ⟨hlegal, fun y hy => legal_of_isDigit (hdigits y hy)⟩⟩
      · have hrest : signedDigits (sign ++ d :: (ds ++ rest)) =
            ((signedDigits t).1, d :: ds ++ rest) :=
          hsigned (ds ++ rest) (hdigits d List.mem_cons_self)
        rw [List.cons_append, List.append_assoc, List.cons_append, expPart]
        simp only [hrest, takeWhile_digits hdigits h.noDigitHead,
          dropWhile_digits hdigits h.noDigitHead, hds]
        rw [if_pos ⟨hexp.1, by simp⟩]
      · obtain rfl : x = y := by simpa using hy
        exact (hx x hexp.1).2
    · exact hnone (by rw [expPart, if_neg hexp])

theorem unsignedNumber_local {neg : Bool} {s rest : List Char} {n : Number}
    (h : unsignedNumber neg s = some (n, rest)) : ∃ i t, s = i ++ (t ++ rest) ∧ IntDigits i ∧
      (∀ x ∈ t, Legal x) ∧
      ∀ rest', NumEnd rest' → unsignedNumber neg (i ++ (t ++ rest')) = some (n, rest') := by
  unfold unsignedNumber at h
  split at h
  · contradiction
  · rename_i i r hi
    obtain ⟨rfl, hdigits⟩ := intPart_local hi
    obtain ⟨f, hf, hflegal, hfrac, hfhead⟩ := fracPart_local r
    obtain ⟨e, he, helegal, hexp, hehead⟩ := expPart_local (fracPart r).2
    have hrest : (expPart (fracPart r).2).2 = rest := by
      dsimp only at h
      split at h <;> exact (Prod.mk.inj (Option.some.inj h)).2
    rw [hrest] at he
    refine ⟨i, f ++ e, by rw [List.append_assoc, ← he, ← hf], hdigits,
      List.forall_mem_append.mpr ⟨hflegal, helegal⟩, fun rest' hend => ?_⟩
    have hint := intPart_append hdigits (hfhead _ (hehead _ hend).noDigitHead)
    rw [unsignedNumber, List.append_assoc, hint]
    dsimp only at h ⊢
    rw [hfrac _ (hehead _ hend)]
    dsimp only
    rw [hexp _ hend]
    dsimp only
    split at h <;> rename_i hkind
    · rw [if_pos hkind, (Prod.mk.inj (Option.some.inj h)).1]
    · rw [if_neg hkind, (Prod.mk.inj (Option.some.inj h)).1]

theorem IntDigits.legal {i : List Char} (h : IntDigits i) : ∀ x ∈ i, Legal x := by
  rcases h with rfl | ⟨c, t, rfl, _, hdigit⟩
  · exact List.forall_mem_singleton.mpr (by decide)
  · exact fun x hx => legal_of_isDigit (hdigit x hx)

theorem number_local {s rest : List Char} {n : Number} (h : number s = some (n, rest)) :
    ∃ c, s = c ++ rest ∧ (∀ x ∈ c, Legal x) ∧ (∀ rest', NumHead (c ++ rest')) ∧
      ∀ rest', NumEnd rest' → number (c ++ rest') = some (n, rest') := by
  obtain ⟨neg, t, rfl, ht⟩ : ∃ neg t, s = Numerals.signText neg ++ t ∧
      unsignedNumber neg t = some (n, rest) := by
    unfold number at h
    split at h
    · exact ⟨true, _, rfl, h⟩
    · exact ⟨false, s, rfl, h⟩
  obtain ⟨i, t, rfl, hi, hlegal, hlocal⟩ := unsignedNumber_local ht
  have hsign : ∀ x ∈ Numerals.signText neg, Legal x := by
    cases neg <;> exact Numerals.forall_mem_of_all (by decide)
  refine ⟨Numerals.signText neg ++ (i ++ t), by simp only [List.append_assoc], ?_,
    fun rest' => ?_, fun rest' hend => ?_⟩
  · exact List.forall_mem_append.mpr ⟨hsign, List.forall_mem_append.mpr ⟨hi.legal, hlegal⟩⟩
  · rw [List.append_assoc, List.append_assoc]
    exact hi.numHead neg _
  · rw [List.append_assoc, List.append_assoc, number_signText neg (hi.append_head_ne _),
      hlocal rest' hend]

theorem literal_local {s rest : List Char} {v : Value} (h : literal s = some (v, rest)) :
    ∃ c, s = c ++ rest ∧ (∀ x ∈ c, Legal x) ∧ (∃ x ∈ c.head?, StartChar x) ∧
      (∀ x ∈ c.head?, x ≠ '"' ∧ x ≠ '{' ∧ x ≠ '[') ∧
      ∀ rest', literal (c ++ rest') = some (v, rest') := by
  obtain ⟨p, hp, hsome⟩ := List.exists_of_findSome?_eq_some h
  split at hsome
  · rename_i hpre
    obtain ⟨rfl, rfl⟩ := Prod.mk.inj (Option.some.inj hsome)
    obtain ⟨t, rfl⟩ := List.isPrefixOf_iff_prefix.mp hpre
    refine ⟨p.1, by rw [List.drop_left], ?_⟩
    simp only [literals, List.mem_cons, List.not_mem_nil, or_false] at hp
    rcases hp with rfl | rfl | rfl | rfl | rfl | rfl <;>
      exact ⟨Numerals.forall_mem_of_all (by decide), ⟨_, rfl, by decide⟩,
        fun x hx => by cases hx; decide, fun rest' => rfl⟩
  · contradiction

/-! ## Values -/

/-- White space before a token. -/
def Blank (s : List Char) : Prop := ∀ c ∈ s, isWs c = true

theorem skipWs_split (s : List Char) : ∃ b, Blank b ∧ s = b ++ skipWs s :=
  ⟨s.takeWhile isWs, fun _ hc => List.mem_takeWhile_imp hc, List.takeWhile_append_dropWhile.symm⟩

theorem Blank.skipWs_append {b : List Char} (h : Blank b) (s : List Char) :
    skipWs (b ++ s) = skipWs s := List.dropWhile_append_of_pos h

theorem Blank.legal {b : List Char} (h : Blank b) : ∀ c ∈ b, Legal c :=
  fun c hc => legal_of_isWs (h c hc)

/-- Blanks end a number. -/
theorem Blank.numEnd {b : List Char} (h : Blank b) {rest : List Char} (hrest : NumEnd rest) :
    NumEnd (b ++ rest) := by
  cases b with
  | nil => exact hrest
  | cons c b =>
    intro d hd
    obtain rfl : c = d := by simpa using hd
    have hc := h c List.mem_cons_self
    simp only [isWs, Bool.or_eq_true, beq_iff_eq] at hc
    rcases hc with ((rfl | rfl) | rfl) | rfl <;> decide

/-- The text begins with the first character of a token that closes nothing. -/
def Starts (c : List Char) : Prop := ∃ x t, c = x :: t ∧ StartChar x

theorem Starts.skipWs_append {c : List Char} (h : Starts c) (s : List Char) :
    skipWs (c ++ s) = c ++ s := by
  obtain ⟨x, t, rfl, hx⟩ := h
  exact skipWs_cons hx.1 _

theorem Starts.length_pos {c : List Char} (h : Starts c) : 0 < c.length := by
  obtain ⟨x, t, rfl, _⟩ := h
  exact Nat.succ_pos _

/-- The text reads as the value wherever it stands. -/
structure ValueText (c : List Char) (v : Value) : Prop where
  starts : Starts c
  reads : ∀ fuel rest, 2 * c.length ≤ fuel → NumEnd rest →
    parseValue fuel (c ++ rest) = some (v, rest)

/-- Texts that the reader of an array takes up to its bracket. -/
structure ElemsText (c : List Char) (vs : List Value) : Prop where
  starts : Starts c
  reads : ∀ fuel rest, 2 * c.length < fuel →
    parseElems fuel (c ++ ']' :: rest) = some (vs, rest)

/-- Texts that the reader of an object takes up to its brace. -/
structure MembersText (c : List Char) (ms : Members) : Prop where
  starts : Starts c
  reads : ∀ fuel rest, 2 * c.length < fuel →
    parseMembers fuel (c ++ '}' :: rest) = some (ms, rest)

theorem ValueText.exists_fuel {c : List Char} (h : Starts c) {fuel : Nat}
    (hf : 2 * c.length ≤ fuel) : ∃ k, fuel = k + 1 := by
  have hpos := h.length_pos
  exact Nat.exists_eq_succ_of_ne_zero (by omega)

theorem scalar_local {s rest : List Char} {v : Value} (h : scalar s = some (v, rest)) :
    ∃ c, s = c ++ rest ∧ (∀ x ∈ c, Legal x) ∧ ValueText c v := by
  unfold scalar at h
  split at h
  · rename_i p hp
    obtain rfl := Option.some.inj h
    obtain ⟨c, rfl, hlegal, ⟨x, hx, hstart⟩, hhead, hlocal⟩ := literal_local hp
    obtain ⟨t, rfl⟩ := List.head?_eq_some_iff.mp hx
    refine ⟨x :: t, rfl, hlegal, ⟨x, t, rfl, hstart⟩, fun fuel rest' hf _ => ?_⟩
    obtain ⟨k, rfl⟩ := ValueText.exists_fuel ⟨x, t, rfl, hstart⟩ hf
    exact parseValue_scalar k hhead (by rw [scalar, hlocal])
  · obtain ⟨⟨n, r⟩, hn, heq⟩ := Option.map_eq_some_iff.mp h
    obtain ⟨rfl, rfl⟩ := Prod.mk.inj heq
    obtain ⟨c, rfl, hlegal, hhead, hlocal⟩ := number_local hn
    have hstarts : Starts c := by
      obtain ⟨x, hx, hstart⟩ := (hhead []).startChar
      rw [List.append_nil] at hx
      obtain ⟨t, rfl⟩ := List.head?_eq_some_iff.mp hx
      exact ⟨x, t, rfl, hstart⟩
    refine ⟨c, rfl, hlegal, hstarts, fun fuel rest' hf hend => ?_⟩
    obtain ⟨k, rfl⟩ := ValueText.exists_fuel hstarts hf
    exact parseValue_number k (hhead rest') (hlocal rest' hend)

section
variable {b b' c d e : List Char} {v : Value} {vs : List Value} {k : List Char} {ms ms' : Members}

theorem valueText_arr_nil (hb : Blank b) : ValueText ('[' :: (b ++ [']'])) (.arr []) := by
  refine ⟨⟨'[', _, rfl, by decide⟩, fun fuel rest hf _ => ?_⟩
  obtain ⟨fuel, rfl⟩ := ValueText.exists_fuel ⟨'[', _, rfl, by decide⟩ hf
  simp [parseValue, hb.skipWs_append, skipWs_cons (c := ']') rfl]

theorem valueText_obj_nil (hb : Blank b) : ValueText ('{' :: (b ++ ['}'])) (.obj []) := by
  refine ⟨⟨'{', _, rfl, by decide⟩, fun fuel rest hf _ => ?_⟩
  obtain ⟨fuel, rfl⟩ := ValueText.exists_fuel ⟨'{', _, rfl, by decide⟩ hf
  simp [parseValue, hb.skipWs_append, skipWs_cons (c := '}') rfl]

theorem ElemsText.value (hb : Blank b) (h : ElemsText c vs) :
    ValueText ('[' :: (b ++ (c ++ [']']))) (.arr vs) := by
  refine ⟨⟨'[', _, rfl, by decide⟩, fun fuel rest hf _ => ?_⟩
  obtain ⟨fuel, rfl⟩ := ValueText.exists_fuel ⟨'[', _, rfl, by decide⟩ hf
  have hread := h.reads fuel rest (by simp at hf; omega)
  obtain ⟨x, t, rfl, hx⟩ := h.starts
  simp only [List.cons_append, List.append_assoc, List.nil_append, parseValue, Char.reduceEq,
    if_false, if_true, hb.skipWs_append, skipWs_cons hx.1]
  split
  · rename_i heq
    exact absurd (List.cons.inj heq).1 hx.2.1
  · rw [← List.cons_append, hread, Option.map_some]

theorem MembersText.value (hb : Blank b) (h : MembersText c ms) :
    ValueText ('{' :: (b ++ (c ++ ['}']))) (.obj ms) := by
  refine ⟨⟨'{', _, rfl, by decide⟩, fun fuel rest hf _ => ?_⟩
  obtain ⟨fuel, rfl⟩ := ValueText.exists_fuel ⟨'{', _, rfl, by decide⟩ hf
  have hread := h.reads fuel rest (by simp at hf; omega)
  obtain ⟨x, t, rfl, hx⟩ := h.starts
  simp only [List.cons_append, List.append_assoc, List.nil_append, parseValue, Char.reduceEq,
    if_false, if_true, hb.skipWs_append, skipWs_cons hx.1]
  split
  · rename_i heq
    exact absurd (List.cons.inj heq).1 hx.2.2
  · rw [← List.cons_append, hread, Option.map_some]

theorem Starts.append (h : Starts c) (s : List Char) : Starts (c ++ s) := by
  obtain ⟨x, t, rfl, hx⟩ := h
  exact ⟨x, t ++ s, rfl, hx⟩

theorem ValueText.elems (h : ValueText c v) (hb : Blank b) : ElemsText (c ++ b) [v] := by
  refine ⟨h.starts.append b, fun fuel rest hf => ?_⟩
  obtain ⟨fuel, rfl⟩ := Nat.exists_eq_succ_of_ne_zero (by omega : fuel ≠ 0)
  rw [List.length_append] at hf
  rw [List.append_assoc, parseElems, h.reads fuel _ (by omega)
    (hb.numEnd (numEnd_cons (.inr (.inl rfl)) rest))]
  simp only [hb.skipWs_append, skipWs_cons (c := ']') rfl]

theorem ValueText.elems_cons (h : ValueText c v) (hb : Blank b) (hb' : Blank b')
    (hd : ElemsText d vs) : ElemsText (c ++ (b ++ ',' :: (b' ++ d))) (v :: vs) := by
  refine ⟨h.starts.append _, fun fuel rest hf => ?_⟩
  obtain ⟨fuel, rfl⟩ := Nat.exists_eq_succ_of_ne_zero (by omega : fuel ≠ 0)
  simp only [List.length_append, List.length_cons] at hf
  simp only [List.append_assoc, List.cons_append]
  rw [parseElems, h.reads fuel _ (by omega) (hb.numEnd (numEnd_cons (.inl rfl) _))]
  simp only [hb.skipWs_append, skipWs_cons (c := ',') rfl, hb'.skipWs_append,
    hd.starts.skipWs_append, hd.reads fuel rest (by omega), Option.map_some]

/-- The characters of a key after its opening quote. -/
def KeyText (k : List Char) (key : String) : Prop :=
  ∀ rest, scanString (k ++ rest) = some (key.toList, rest)

/-- A member, without what follows the blanks after its value. -/
def memberText (k b b' c b'' : List Char) : List Char :=
  '"' :: (k ++ (b ++ ':' :: (b' ++ (c ++ b''))))

variable {key : String} {b'' : List Char}

theorem starts_memberText (k b b' c b'' : List Char) : Starts (memberText k b b' c b'') :=
  ⟨'"', _, rfl, by decide⟩

theorem MembersText.single (hk : KeyText k key) (hb : Blank b) (hb' : Blank b')
    (h : ValueText c v) (hb'' : Blank b'') :
    MembersText (memberText k b b' c b'') [(key, v)] := by
  refine ⟨starts_memberText .., fun fuel rest hf => ?_⟩
  obtain ⟨fuel, rfl⟩ := Nat.exists_eq_succ_of_ne_zero (by omega : fuel ≠ 0)
  simp only [memberText, List.length_append, List.length_cons] at hf
  simp only [memberText, List.append_assoc, List.cons_append]
  rw [parseMembers, if_pos rfl, hk]
  simp only [hb.skipWs_append, skipWs_cons (c := ':') rfl, hb'.skipWs_append,
    h.starts.skipWs_append, h.reads fuel _ (by omega)
      (hb''.numEnd (numEnd_cons (.inr (.inr (.inl rfl))) rest)), hb''.skipWs_append,
    skipWs_cons (c := '}') rfl, String.ofList_toList]

theorem MembersText.cons (hk : KeyText k key) (hb : Blank b) (hb' : Blank b')
    (h : ValueText c v) (hb'' : Blank b'') (hbd : Blank d) (hms : MembersText e ms) :
    MembersText (memberText k b b' c b'' ++ ',' :: (d ++ e)) ((key, v) :: ms) := by
  refine ⟨(starts_memberText ..).append _, fun fuel rest hf => ?_⟩
  obtain ⟨fuel, rfl⟩ := Nat.exists_eq_succ_of_ne_zero (by omega : fuel ≠ 0)
  simp only [memberText, List.length_append, List.length_cons] at hf
  simp only [memberText, List.append_assoc, List.cons_append]
  rw [parseMembers, if_pos rfl, hk]
  simp only [hb.skipWs_append, skipWs_cons (c := ':') rfl, hb'.skipWs_append,
    h.starts.skipWs_append, h.reads fuel _ (by omega) (hb''.numEnd (numEnd_cons (.inl rfl) _)),
    hb''.skipWs_append, skipWs_cons (c := ',') rfl, hbd.skipWs_append, hms.starts.skipWs_append,
    hms.reads fuel rest (by omega), Option.map_some, String.ofList_toList]

end

/-- What the three readers do at one fuel level. -/
structure FuelLocal (fuel : Nat) : Prop where
  value : ∀ {s rest v}, parseValue fuel s = some (v, rest) →
    ∃ c, s = c ++ rest ∧ (∀ x ∈ c, Legal x) ∧ ValueText c v
  elems : ∀ {s rest vs}, parseElems fuel s = some (vs, rest) →
    ∃ c, s = c ++ ']' :: rest ∧ (∀ x ∈ c, Legal x) ∧ ElemsText c vs
  members : ∀ {s rest ms}, parseMembers fuel s = some (ms, rest) →
    ∃ c, s = c ++ '}' :: rest ∧ (∀ x ∈ c, Legal x) ∧ ms ≠ [] ∧ MembersText c ms ∧
      ∀ {d ms'}, MembersText d ms' → MembersText (c ++ ',' :: d) (ms ++ ms')

theorem FuelLocal.step_value {fuel : Nat} (ih : FuelLocal fuel) {s rest : List Char}
    {v : Value} (h : parseValue (fuel + 1) s = some (v, rest)) :
    ∃ c, s = c ++ rest ∧ (∀ x ∈ c, Legal x) ∧ ValueText c v := by
  cases s with
  | nil => simp [parseValue] at h
  | cons c s =>
    simp only [parseValue] at h
    obtain ⟨b, hb, hs⟩ := skipWs_split s
    split_ifs at h with hq ho ha
    · subst hq
      obtain ⟨⟨cs, r⟩, hscan, heq⟩ := Option.map_eq_some_iff.mp h
      obtain ⟨rfl, rfl⟩ := Prod.mk.inj heq
      obtain ⟨t, rfl, ht, hlocal⟩ := scanString_local hscan
      have hstarts : Starts ('"' :: t) := ⟨'"', t, rfl, by decide⟩
      refine ⟨'"' :: t, rfl, List.forall_mem_cons.mpr ⟨by decide,
        fun x hx => legal_of_le (ht x hx)⟩, hstarts, fun fuel' rest' hf _ => ?_⟩
      obtain ⟨k, rfl⟩ := ValueText.exists_fuel hstarts hf
      rw [List.cons_append, parseValue, if_pos rfl, hlocal, Option.map_some]
    · subst ho
      split at h
      · rename_i t hws
        obtain ⟨rfl, rfl⟩ := Prod.mk.inj (Option.some.inj h)
        refine ⟨'{' :: (b ++ ['}']), by rw [hs, hws]; simp, ?_, valueText_obj_nil hb⟩
        exact List.forall_mem_cons.mpr ⟨by decide, List.forall_mem_append.mpr
          ⟨hb.legal, List.forall_mem_singleton.mpr (by decide)⟩⟩
      · obtain ⟨⟨ms, r⟩, hread, heq⟩ := Option.map_eq_some_iff.mp h
        obtain ⟨rfl, rfl⟩ := Prod.mk.inj heq
        obtain ⟨c, hc, hlegal, -, hms, -⟩ := ih.members hread
        refine ⟨'{' :: (b ++ (c ++ ['}'])), by rw [hs, hc]; simp, ?_, hms.value hb⟩
        exact List.forall_mem_cons.mpr ⟨by decide, List.forall_mem_append.mpr
          ⟨hb.legal, List.forall_mem_append.mpr
            ⟨hlegal, List.forall_mem_singleton.mpr (by decide)⟩⟩⟩
    · subst ha
      split at h
      · rename_i t hws
        obtain ⟨rfl, rfl⟩ := Prod.mk.inj (Option.some.inj h)
        refine ⟨'[' :: (b ++ [']']), by rw [hs, hws]; simp, ?_, valueText_arr_nil hb⟩
        exact List.forall_mem_cons.mpr ⟨by decide, List.forall_mem_append.mpr
          ⟨hb.legal, List.forall_mem_singleton.mpr (by decide)⟩⟩
      · obtain ⟨⟨vs, r⟩, hread, heq⟩ := Option.map_eq_some_iff.mp h
        obtain ⟨rfl, rfl⟩ := Prod.mk.inj heq
        obtain ⟨c, hc, hlegal, hvs⟩ := ih.elems hread
        refine ⟨'[' :: (b ++ (c ++ [']'])), by rw [hs, hc]; simp, ?_, hvs.value hb⟩
        exact List.forall_mem_cons.mpr ⟨by decide, List.forall_mem_append.mpr
          ⟨hb.legal, List.forall_mem_append.mpr
            ⟨hlegal, List.forall_mem_singleton.mpr (by decide)⟩⟩⟩
    · exact scalar_local h

theorem FuelLocal.step_elems {fuel : Nat} (ih : FuelLocal fuel) {s rest : List Char}
    {vs : List Value} (h : parseElems (fuel + 1) s = some (vs, rest)) :
    ∃ c, s = c ++ ']' :: rest ∧ (∀ x ∈ c, Legal x) ∧ ElemsText c vs := by
  simp only [parseElems] at h
  split at h
  · contradiction
  · rename_i v r hv
    obtain ⟨c, rfl, hlegal, hvalue⟩ := ih.value hv
    obtain ⟨b, hb, hr⟩ := skipWs_split r
    split at h
    · rename_i t hws
      obtain ⟨⟨vs, r⟩, hread, heq⟩ := Option.map_eq_some_iff.mp h
      obtain ⟨rfl, rfl⟩ := Prod.mk.inj heq
      obtain ⟨b', hb', ht⟩ := skipWs_split t
      obtain ⟨d, hd, hdlegal, helems⟩ := ih.elems hread
      refine ⟨c ++ (b ++ ',' :: (b' ++ d)), by rw [hr, hws, ht, hd]; simp, ?_,
        hvalue.elems_cons hb hb' helems⟩
      exact List.forall_mem_append.mpr ⟨hlegal, List.forall_mem_append.mpr
        ⟨hb.legal, List.forall_mem_cons.mpr ⟨by decide, List.forall_mem_append.mpr
          ⟨hb'.legal, hdlegal⟩⟩⟩⟩
    · rename_i t hws
      obtain ⟨rfl, rfl⟩ := Prod.mk.inj (Option.some.inj h)
      exact ⟨c ++ b, by rw [hr, hws]; simp, List.forall_mem_append.mpr ⟨hlegal, hb.legal⟩,
        hvalue.elems hb⟩
    · contradiction

theorem FuelLocal.step_members {fuel : Nat} (ih : FuelLocal fuel) {s rest : List Char}
    {ms : Members} (h : parseMembers (fuel + 1) s = some (ms, rest)) :
    ∃ c, s = c ++ '}' :: rest ∧ (∀ x ∈ c, Legal x) ∧ ms ≠ [] ∧ MembersText c ms ∧
      ∀ {d ms'}, MembersText d ms' → MembersText (c ++ ',' :: d) (ms ++ ms') := by
  cases s with
  | nil => simp [parseMembers] at h
  | cons q s =>
    simp only [parseMembers] at h
    split at h
    · rename_i hq
      subst hq
      split at h
      · contradiction
      · rename_i k r hk
        obtain ⟨kc, rfl, hklegal, hklocal⟩ := scanString_local hk
        have hkey : KeyText kc (String.ofList k) := by
          intro rest'
          rw [hklocal, String.toList_ofList]
        obtain ⟨b, hb, hr⟩ := skipWs_split r
        split at h
        · rename_i r' hcolon
          obtain ⟨b', hb', hr'⟩ := skipWs_split r'
          split at h
          · contradiction
          · rename_i v r'' hv
            obtain ⟨c, hc, hclegal, hvalue⟩ := ih.value hv
            obtain ⟨b'', hb'', hr''⟩ := skipWs_split r''
            have hmember : ∀ x ∈ memberText kc b b' c b'', Legal x := by
              refine List.forall_mem_cons.mpr ⟨by decide, List.forall_mem_append.mpr
                ⟨fun x hx => legal_of_le (hklegal x hx), List.forall_mem_append.mpr
                  ⟨hb.legal, List.forall_mem_cons.mpr ⟨by decide, List.forall_mem_append.mpr
                    ⟨hb'.legal, List.forall_mem_append.mpr ⟨hclegal, hb''.legal⟩⟩⟩⟩⟩⟩
            split at h
            · rename_i t hws
              obtain ⟨⟨ms, u⟩, hread, heq⟩ := Option.map_eq_some_iff.mp h
              obtain ⟨rfl, rfl⟩ := Prod.mk.inj heq
              obtain ⟨bd, hbd, ht⟩ := skipWs_split t
              obtain ⟨d, hd, hdlegal, -, hms, hextend⟩ := ih.members hread
              refine ⟨memberText kc b b' c b'' ++ ',' :: (bd ++ d), ?_, ?_, List.cons_ne_nil _ _,
                hms.cons hkey hb hb' hvalue hb'' hbd, fun {d' ms'} hd' => ?_⟩
              · rw [hr, hcolon, hr', hc, hr'', hws, ht, hd]
                simp [memberText]
              · exact List.forall_mem_append.mpr ⟨hmember, List.forall_mem_cons.mpr
                  ⟨by decide, List.forall_mem_append.mpr ⟨hbd.legal, hdlegal⟩⟩⟩
              · have hrest := (hextend hd').cons hkey hb hb' hvalue hb'' hbd
                simpa only [List.append_assoc, List.cons_append] using hrest
            · rename_i t hws
              obtain ⟨rfl, rfl⟩ := Prod.mk.inj (Option.some.inj h)
              refine ⟨memberText kc b b' c b'', ?_, hmember, List.cons_ne_nil _ _,
                .single hkey hb hb' hvalue hb'', fun {d' ms'} hd' => ?_⟩
              · rw [hr, hcolon, hr', hc, hr'', hws]
                simp [memberText]
              · exact hd'.cons hkey hb hb' hvalue hb'' (b := b) (d := []) (fun _ h => nomatch h)
            · contradiction
        · contradiction
    · contradiction

theorem fuelLocal (fuel : Nat) : FuelLocal fuel := by
  induction fuel with
  | zero => constructor <;> intro s rest v h <;> simp [parseValue, parseElems, parseMembers] at h
  | succ fuel ih => exact ⟨ih.step_value, ih.step_elems, ih.step_members⟩

/-! ## Documents -/

theorem skipWs_of_blank {b : List Char} (h : Blank b) : skipWs b = [] := by
  rw [← List.append_nil b, h.skipWs_append]
  rfl

theorem blank_of_skipWs {s : List Char} (h : skipWs s = []) : Blank s := by
  obtain ⟨b, hb, hs⟩ := skipWs_split s
  rw [h, List.append_nil] at hs
  exact hs ▸ hb

/-- A document is the text of its value between blanks. -/
theorem loads_split {s : List Char} {v : Value} (h : loads s = some v) :
    ∃ b c b', s = b ++ (c ++ b') ∧ Blank b ∧ Blank b' ∧ (∀ x ∈ s, Legal x) ∧ ValueText c v := by
  obtain ⟨b, hb, hs⟩ := skipWs_split s
  unfold loads at h
  split at h
  · rename_i w r hparse
    split at h
    · rename_i hend
      obtain rfl := Option.some.inj h
      obtain ⟨c, hc, hlegal, hvalue⟩ := (fuelLocal _).value hparse
      have hr := blank_of_skipWs hend
      refine ⟨b, c, r, by rw [← hc, ← hs], hb, hr, ?_, hvalue⟩
      rw [hs, hc]
      exact List.forall_mem_append.mpr ⟨hb.legal, List.forall_mem_append.mpr ⟨hlegal, hr.legal⟩⟩
    · contradiction
  · contradiction

theorem ValueText.loads {b c b' : List Char} {v : Value} (h : ValueText c v) (hb : Blank b)
    (hb' : Blank b') : loads (b ++ (c ++ b')) = some v := by
  have hread := h.reads (2 * (b ++ (c ++ b')).length) b' (by simp; omega)
    (by simpa using hb'.numEnd numEnd_nil)
  rw [Json.loads, hb.skipWs_append, h.starts.skipWs_append, hread]
  exact if_pos (skipWs_of_blank hb')

/-- A comma after a document. -/
theorem loads_append_comma {s : List Char} {v : Value} (h : loads s = some v) (rest : List Char) :
    loads (s ++ ',' :: rest) = none := by
  obtain ⟨b, c, b', rfl, hb, hb', -, hvalue⟩ := loads_split h
  have hread := hvalue.reads (2 * (b ++ (c ++ (b' ++ ',' :: rest))).length) (b' ++ ',' :: rest)
    (by simp; omega) (hb'.numEnd (numEnd_cons (.inl rfl) rest))
  have hend : skipWs (b' ++ ',' :: rest) ≠ [] := by
    rw [hb'.skipWs_append, skipWs_cons (c := ',') rfl]
    exact List.cons_ne_nil _ _
  rw [List.append_assoc, List.append_assoc, loads, hb.skipWs_append, hvalue.starts.skipWs_append,
    hread]
  exact if_neg hend

/-- A comma where the first member should stand. -/
theorem loads_obj_comma {b t : List Char} (hb : Blank b) (ht : Blank t) (rest : List Char) :
    loads (b ++ '{' :: (t ++ ',' :: rest)) = none := by
  rw [loads, hb.skipWs_append, skipWs_cons (c := '{') rfl]
  have hnone (fuel : Nat) : parseValue fuel ('{' :: (t ++ ',' :: rest)) = none := by
    cases fuel with
    | zero => rfl
    | succ fuel =>
      simp only [parseValue, Char.reduceEq, if_false, if_true, ht.skipWs_append,
        skipWs_cons (c := ',') rfl]
      cases fuel with
      | zero => rfl
      | succ fuel => simp [parseMembers]
  rw [hnone]

/-- The members of an object can be followed by others. -/
def MembersPrefix (m : List Char) (ms : Members) : Prop :=
  MembersText m ms ∧ ∀ {d ms'}, MembersText d ms' → MembersText (m ++ ',' :: d) (ms ++ ms')

theorem number_ne_obj (n : Number) (ms : Members) : n.toValue ≠ .obj ms := by
  cases n <;> (intro h; cases h)

theorem scalar_ne_obj {s rest : List Char} {v : Value} (h : scalar s = some (v, rest))
    (ms : Members) : v ≠ .obj ms := by
  unfold scalar at h
  split at h
  · rename_i p hp
    obtain rfl := Option.some.inj h
    obtain ⟨q, hq, hsome⟩ := List.exists_of_findSome?_eq_some hp
    split at hsome
    · obtain ⟨rfl, -⟩ := Prod.mk.inj (Option.some.inj hsome)
      simp only [literals, List.mem_cons, List.not_mem_nil, or_false] at hq
      rcases hq with rfl | rfl | rfl | rfl | rfl | rfl <;> (intro h; cases h)
    · contradiction
  · obtain ⟨⟨n, r⟩, -, heq⟩ := Option.map_eq_some_iff.mp h
    obtain ⟨rfl, -⟩ := Prod.mk.inj heq
    exact number_ne_obj n ms

theorem parseValue_obj_split {fuel : Nat} {s rest : List Char} {ms : Members}
    (h : parseValue fuel s = some (.obj ms, rest)) :
    ∃ b m, s = '{' :: (b ++ (m ++ '}' :: rest)) ∧ Blank b ∧
      (ms = [] ∧ m = [] ∨ ms ≠ [] ∧ MembersPrefix m ms) := by
  cases fuel with
  | zero => simp [parseValue] at h
  | succ fuel =>
    cases s with
    | nil => simp [parseValue] at h
    | cons c s =>
      simp only [parseValue] at h
      obtain ⟨b, hb, hs⟩ := skipWs_split s
      split_ifs at h with hq ho ha
      · obtain ⟨p, -, heq⟩ := Option.map_eq_some_iff.mp h
        cases (Prod.mk.inj heq).1
      · subst ho
        split at h
        · rename_i t hws
          obtain ⟨heq, rfl⟩ := Prod.mk.inj (Option.some.inj h)
          obtain rfl := Value.obj.inj heq
          exact ⟨b, [], by rw [hs, hws]; rfl, hb, .inl ⟨rfl, rfl⟩⟩
        · obtain ⟨⟨ms', r⟩, hread, heq⟩ := Option.map_eq_some_iff.mp h
          obtain ⟨hobj, rfl⟩ := Prod.mk.inj heq
          obtain rfl := Value.obj.inj hobj
          obtain ⟨m, hm, -, hne, hms, hextend⟩ := (fuelLocal fuel).members hread
          exact ⟨b, m, by rw [hs, hm], hb, .inr ⟨hne, hms, hextend⟩⟩
      · split at h
        · cases (Prod.mk.inj (Option.some.inj h)).1
        · obtain ⟨p, -, heq⟩ := Option.map_eq_some_iff.mp h
          cases (Prod.mk.inj heq).1
      · exact absurd rfl (scalar_ne_obj h ms)

/-- The text of an object: blanks, its members between braces, blanks. -/
theorem loads_obj_split {s : List Char} {ms : Members} (h : loads s = some (.obj ms)) :
    ∃ b b' m b'', s = b ++ '{' :: (b' ++ (m ++ '}' :: b'')) ∧ Blank b ∧ Blank b' ∧ Blank b'' ∧
      (ms = [] ∧ m = [] ∨ ms ≠ [] ∧ MembersPrefix m ms) := by
  obtain ⟨b, hb, hs⟩ := skipWs_split s
  unfold loads at h
  split at h
  · rename_i w r hparse
    split at h
    · rename_i hend
      obtain rfl := Option.some.inj h
      obtain ⟨b', m, hobj, hb', hms⟩ := parseValue_obj_split hparse
      exact ⟨b, b', m, r, by rw [← hobj, ← hs], hb, hb', blank_of_skipWs hend, hms⟩
    · contradiction
  · contradiction

/-! ## Objects put together -/

/-- A member as text: a key that stands for itself, and a value between blanks. -/
structure Item where
  key : String
  lead : List Char
  body : List Char
  trail : List Char
  value : Value
  keyText : KeyText (key.toList ++ ['"']) key
  lead_blank : Blank lead
  trail_blank : Blank trail
  reads : ValueText body value

def Item.text (i : Item) : List Char :=
  memberText (i.key.toList ++ ['"']) [] i.lead i.body i.trail

def Item.member (i : Item) : String × Value := (i.key, i.value)

/-- The members after the first, each with the comma before it. -/
def followers (is : List Item) : List Char := is.flatMap fun i => ',' :: i.text

theorem blank_nil : Blank [] := List.forall_mem_nil _

theorem membersText_items (i : Item) (is : List Item) :
    MembersText (i.text ++ followers is) ((i :: is).map Item.member) := by
  induction is generalizing i with
  | nil =>
    rw [followers, List.flatMap_nil, List.append_nil]
    exact .single i.keyText blank_nil i.lead_blank i.reads i.trail_blank
  | cons j is ih =>
    have hcons := (ih j).cons i.keyText blank_nil i.lead_blank i.reads i.trail_blank blank_nil
    rwa [followers, List.flatMap_cons, List.cons_append]

theorem loads_items (i : Item) (is : List Item) :
    loads ('{' :: (i.text ++ followers is ++ ['}'])) = some (.obj ((i :: is).map Item.member)) := by
  have hvalue := ((membersText_items i is).value blank_nil).loads blank_nil blank_nil
  rwa [List.append_nil] at hvalue

/-- Members after those of an object that has some. -/
theorem MembersPrefix.loads_followers {b b' m : List Char} {ms : Members} (h : MembersPrefix m ms)
    (hb : Blank b) (hb' : Blank b') {is : List Item} :
    loads (b ++ '{' :: (b' ++ (m ++ followers is ++ ['}']))) =
      some (.obj (ms ++ is.map Item.member)) := by
  have hmembers : MembersText (m ++ followers is) (ms ++ is.map Item.member) := by
    cases is with
    | nil => simpa [followers] using h.1
    | cons i is => exact h.2 (membersText_items i is)
  have hvalue := (hmembers.value hb').loads hb blank_nil
  rwa [List.append_nil] at hvalue

end SpineFormal.Json
