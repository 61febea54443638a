import SpineFormal.Json.Jsonb
import SpineFormal.Json.Loads
import SpineFormal.Json.Scan

/-!
# What a text loses on its way into a column

The weight of a text is the number of its backslashes and of its letters `u`. Reading an
ASCII document and writing it again does not add to it: an escape is written with as much
as it was read from. So a text that has lost a backslash before it was stored never comes
back as the document it was.
-/

namespace SpineFormal.Json

open Numerals
set_option autoImplicit false

def weight (s : List Char) : Nat := s.countP fun c => c = '\\' || c = 'u'

@[simp] theorem weight_nil : weight [] = 0 := rfl

theorem weight_append (s t : List Char) : weight (s ++ t) = weight s + weight t :=
  List.countP_append

theorem weight_cons (c : Char) (s : List Char) : weight (c :: s) = weight [c] + weight s :=
  weight_append [c] s

theorem weight_singleton_le (c : Char) : weight [c] ≤ 1 := List.countP_le_length

theorem weight_eq_zero {s : List Char} (h : ∀ c ∈ s, c ≠ '\\' ∧ c ≠ 'u') : weight s = 0 := by
  rw [weight, List.countP_eq_zero]
  intro c hc
  simp [h c hc]

/-! ## Writing -/

theorem weight_unicodeEscape (u : Nat) : weight (unicodeEscape u) = 2 := by
  have hdigits : weight (fixed 16 4 u) = 0 := by
    apply weight_eq_zero
    intro c hc
    obtain ⟨d, hd, rfl⟩ := mem_fixed (by decide) hc
    have hdigits : ∀ d < 16, Nat.digitChar d ≠ '\\' ∧ Nat.digitChar d ≠ 'u' := by decide
    exact hdigits d hd
  rw [unicodeEscape, weight_cons, weight_cons 'u', hdigits]
  rfl

theorem weight_escapeChar_le_four (c : Char) : weight (escapeChar c) ≤ 4 := by
  unfold escapeChar
  split_ifs
  any_goals decide
  · exact Nat.le_trans (weight_singleton_le c) (by decide)
  · rw [weight_unicodeEscape]
    decide
  · rw [weight_append, weight_unicodeEscape, weight_unicodeEscape]

theorem weight_escapeChar_le_two {c : Char} (h : c.toNat < 0x10000) :
    weight (escapeChar c) ≤ 2 := by
  unfold escapeChar
  split_ifs
  any_goals decide
  · exact Nat.le_trans (weight_singleton_le c) (by decide)
  · rw [weight_unicodeEscape]

/-- A character that is written as it is. -/
theorem escapeChar_self {c : Char} (hc : Printable c) (hq : c ≠ '"') (hb : c ≠ '\\') :
    escapeChar c = [c] := by
  have hcontrol : ∀ d : Char, d.toNat < 0x20 → c ≠ d := by
    rintro d hd rfl
    exact absurd hc.1 (by omega)
  unfold escapeChar
  rw [if_neg hq, if_neg hb, if_neg (hcontrol _ (by decide)), if_neg (hcontrol _ (by decide)),
    if_neg (hcontrol _ (by decide)), if_neg (hcontrol _ (by decide)),
    if_neg (hcontrol _ (by decide)), if_pos (show 0x20 ≤ c.toNat ∧ c.toNat ≤ 0x7e from hc)]

theorem weight_joinWith (sep : Char) (hsep : weight [sep] = 0) (xs : List (List Char)) :
    weight (joinWith sep xs) = (xs.map weight).sum := by
  induction xs with
  | nil => rfl
  | cons x xs ih =>
    cases xs with
    | nil => simp [joinWith]
    | cons y ys =>
      rw [joinWith, weight_append, weight_cons, hsep, ih, Nat.zero_add]
      rfl

def Value.weight (v : Value) : Nat := Json.weight (encode v)

def memberWeight (m : String × Value) : Nat := weight (encodeString m.1) + m.2.weight

theorem weight_arr (xs : List Value) : (Value.arr xs).weight = (xs.map Value.weight).sum := by
  rw [Value.weight, encode_arr, weight_cons, weight_append, weight_joinWith ',' rfl, List.map_map]
  exact Nat.zero_add _

theorem weight_obj (ms : Members) : (Value.obj ms).weight = (ms.map memberWeight).sum := by
  have hmember : ∀ m : String × Value, weight (encodeMember m) = memberWeight m := by
    intro m
    rw [encodeMember, weight_append, weight_cons]
    exact congrArg (weight (encodeString m.1) + ·) (Nat.zero_add _)
  rw [Value.weight, encode_obj, weight_cons, weight_append, weight_joinWith ',' rfl, List.map_map]
  rw [show Json.weight ∘ encodeMember = memberWeight from funext hmember]
  exact Nat.zero_add _

theorem weight_decimal (n : Int) : weight (decimal n) = 0 :=
  weight_eq_zero fun c hc => (numberChar_decimal n c hc).2.2

theorem weight_floatstr (x : PyFloat) : weight x.floatstr = 0 :=
  weight_eq_zero fun c hc => (numberChar_floatstr x c hc).2.2

theorem weight_number (n : Number) : n.toValue.weight = 0 := by
  cases n with
  | int n => simpa [Value.weight, encode, Number.toValue] using weight_decimal n
  | float x => simpa [Value.weight, encode, Number.toValue] using weight_floatstr x

/-! ## Reading -/

/-- What is read between `s` and `rest`, if it is ASCII, weighs at least `n`. -/
def Weighs (n : Nat) (s rest : List Char) : Prop :=
  ∃ c, s = c ++ rest ∧ ((∀ x ∈ c, x.toNat ≤ 0x7e) → n ≤ weight c)

theorem Weighs.trans {n m : Nat} {s t u : List Char} (hst : Weighs n s t) (htu : Weighs m t u) :
    Weighs (n + m) s u := by
  obtain ⟨c, rfl, hc⟩ := hst
  obtain ⟨d, rfl, hd⟩ := htu
  refine ⟨c ++ d, (List.append_assoc c d u).symm, fun hlow => ?_⟩
  rw [weight_append]
  exact Nat.add_le_add (hc fun x hx => hlow x (List.mem_append_left d hx))
    (hd fun x hx => hlow x (List.mem_append_right c hx))

theorem Weighs.le {n m : Nat} {s t : List Char} (h : Weighs n s t) (hmn : m ≤ n) :
    Weighs m s t := by
  obtain ⟨c, hs, hc⟩ := h
  exact ⟨c, hs, fun hlow => Nat.le_trans hmn (hc hlow)⟩

theorem Consumes.weighs {s rest : List Char} (h : Consumes s rest) : Weighs 0 s rest := by
  obtain ⟨c, hs, -⟩ := h
  exact ⟨c, hs, fun _ => Nat.zero_le _⟩

theorem weighs_cut {n : Nat} {c : List Char} (h : (∀ x ∈ c, x.toNat ≤ 0x7e) → n ≤ weight c)
    (rest : List Char) : Weighs n (c ++ rest) rest := ⟨c, rfl, h⟩

/-- The weight with which a code unit is written. -/
def unitWeight (u : Nat) : Nat :=
  if 0xd800 ≤ u ∧ u < 0xe000 then 2 else weight (escapeChar (Char.ofNat u))

theorem weight_chr (u : Nat) : weight (escapeChar (chr u)) = unitWeight u := by
  rw [chr, unitWeight]
  split
  · decide
  · rfl

def textWeight (cs : List Char) : Nat := weight (cs.flatMap escapeChar)

theorem textWeight_cons (c : Char) (cs : List Char) :
    textWeight (c :: cs) = weight (escapeChar c) + textWeight cs := by
  rw [textWeight, List.flatMap_cons, weight_append]
  rfl

theorem weight_str (cs : List Char) : (Value.str (String.ofList cs)).weight = textWeight cs := by
  rw [Value.weight, encode, encodeString, weight_cons, weight_append, String.toList_ofList]
  exact Nat.zero_add _

theorem textWeight_joinSurrogates (us : List Nat) :
    textWeight (joinSurrogates us) ≤ (us.map unitWeight).sum := by
  fun_induction joinSurrogates us with
  | case1 => exact Nat.le_refl 0
  | case2 u =>
    rw [textWeight_cons, weight_chr]
    exact Nat.le_refl _
  | case3 u l us hpair ih =>
    have hu : unitWeight u = 2 := if_pos ⟨hpair.1.1, Nat.lt_trans hpair.1.2 (by decide)⟩
    have hl : unitWeight l = 2 := if_pos ⟨Nat.le_trans (by decide) hpair.2.1, hpair.2.2⟩
    have hchar := weight_escapeChar_le_four
      (Char.ofNat (0x10000 + (u - 0xd800) * 0x400 + (l - 0xdc00)))
    rw [textWeight_cons]
    simp only [List.map_cons, List.sum_cons, hu, hl]
    omega
  | case4 u l us _ ih =>
    rw [textWeight_cons, weight_chr, List.map_cons, List.sum_cons]
    exact Nat.add_le_add_left ih _

theorem hexVal_lt {c : Char} {n : Nat} (h : hexVal c = some n) : n < 16 := by
  rw [hexVal] at h
  split at h
  · rename_i hc
    have hle : c.toNat ≤ 70 := hc.2
    obtain rfl := Option.some.inj h
    omega
  · rw [digitVal] at h
    split at h
    · rename_i hc
      have hle : c.toNat ≤ 57 := hc.2
      obtain rfl := Option.some.inj h
      omega
    · split at h
      · rename_i hc
        have hle : c.toNat ≤ 102 := hc.2
        obtain rfl := Option.some.inj h
        omega
      · cases h

theorem hex4_lt {a b c d : Char} {u : Nat} (h : hex4 a b c d = some u) : u < 0x10000 := by
  rw [hex4] at h
  split at h
  · rename_i ha hb hc hd
    have := hexVal_lt ha
    have := hexVal_lt hb
    have := hexVal_lt hc
    have := hexVal_lt hd
    obtain rfl := Option.some.inj h
    omega
  · cases h

theorem toNat_ofNat_le (u : Nat) : (Char.ofNat u).toNat ≤ u := by
  by_cases h : u.isValidChar
  · rw [Char.ofNat, dif_pos h]
    exact Nat.le_refl u
  · rw [Char.ofNat, dif_neg h]
    exact Nat.zero_le u

theorem unitWeight_le_two {u : Nat} (h : u < 0x10000) : unitWeight u ≤ 2 := by
  rw [unitWeight]
  split
  · exact Nat.le_refl 2
  · exact weight_escapeChar_le_two (Nat.lt_of_le_of_lt (toNat_ofNat_le u) h)

/-- An escape of one letter is written with no more. -/
theorem unitWeight_simpleEscape {e c : Char} (h : simpleEscape e = some c) :
    unitWeight c.toNat ≤ weight ['\\', e] := by
  unfold simpleEscape at h
  split at h <;> first | (obtain rfl := Option.some.inj h; decide) | cases h

theorem unitWeight_plain {c : Char} (hc : Printable c) (hq : c ≠ '"') (hb : c ≠ '\\') :
    unitWeight c.toNat = weight [c] := by
  have hrange : ¬ (0xd800 ≤ c.toNat ∧ c.toNat < 0xe000) := by
    have hle := hc.2
    omega
  rw [unitWeight, if_neg hrange, Char.ofNat_toNat, escapeChar_self hc hq hb]

theorem scanUnits_weighs {s rest : List Char} {us : List Nat} (h : scanUnits s = some (us, rest)) :
    Weighs (us.map unitWeight).sum s rest := by
  fun_induction scanUnits s generalizing us with
  | case1 | case3 | case5 | case7 => contradiction
  | case2 s =>
    obtain ⟨rfl, rfl⟩ := Prod.mk.inj (Option.some.inj h)
    exact weighs_cut (c := ['"']) (fun _ => Nat.zero_le _) s
  | case4 a b c d s u hu ih =>
    obtain ⟨⟨us', r⟩, hs, heq⟩ := Option.map_eq_some_iff.mp h
    obtain ⟨rfl, rfl⟩ := Prod.mk.inj heq
    have hescape : Weighs (unitWeight u) ('\\' :: 'u' :: a :: b :: c :: d :: s) s := by
      refine weighs_cut (c := ['\\', 'u', a, b, c, d]) (fun _ => ?_) s
      refine Nat.le_trans (unitWeight_le_two (hex4_lt hu)) ?_
      rw [weight_cons, weight_cons 'u', ← Nat.add_assoc]
      exact Nat.le_add_right 2 _
    exact hescape.trans (ih hs)
  | case6 e s _ c hc ih =>
    obtain ⟨⟨us', r⟩, hs, heq⟩ := Option.map_eq_some_iff.mp h
    obtain ⟨rfl, rfl⟩ := Prod.mk.inj heq
    have hescape : Weighs (unitWeight c.toNat) ('\\' :: e :: s) s :=
      weighs_cut (c := ['\\', e]) (fun _ => unitWeight_simpleEscape hc) s
    exact hescape.trans (ih hs)
  | case8 c s hq _ _ hc ih =>
    obtain ⟨⟨us', r⟩, hs, heq⟩ := Option.map_eq_some_iff.mp h
    obtain ⟨rfl, rfl⟩ := Prod.mk.inj heq
    have hplain : Weighs (unitWeight c.toNat) (c :: s) s := by
      refine weighs_cut (c := [c]) (fun hlow => ?_) s
      have hle := hlow c (List.mem_singleton_self c)
      have hge : 0x20 ≤ c.toNat := Nat.le_of_not_lt fun hlt => hc (Or.inr hlt)
      exact Nat.le_of_eq (unitWeight_plain ⟨hge, hle⟩ hq fun hb => hc (Or.inl hb))
    exact hplain.trans (ih hs)

theorem scanString_weighs {s cs rest : List Char} (h : scanString s = some (cs, rest)) :
    Weighs (textWeight cs) s rest := by
  obtain ⟨⟨us, r⟩, hs, heq⟩ := Option.map_eq_some_iff.mp h
  obtain ⟨rfl, rfl⟩ := Prod.mk.inj heq
  exact (scanUnits_weighs hs).le (textWeight_joinSurrogates us)

theorem literal_weighs {s rest : List Char} {v : Value} (h : literal s = some (v, rest)) :
    Weighs v.weight s rest := by
  obtain ⟨p, hp, hsome⟩ := List.exists_of_findSome?_eq_some h
  split at hsome
  · rename_i hpre
    obtain ⟨rfl, rfl⟩ := Prod.mk.inj (Option.some.inj hsome)
    obtain ⟨t, rfl⟩ := List.isPrefixOf_iff_prefix.mp hpre
    have hweight : ∀ p ∈ literals, p.2.weight ≤ weight p.1 := by
      intro p hp
      simp only [literals, List.mem_cons, List.not_mem_nil, or_false] at hp
      rcases hp with rfl | rfl | rfl | rfl | rfl | rfl <;> exact Nat.le_refl _
    rw [List.drop_left]
    exact weighs_cut (fun _ => hweight p hp) t
  · contradiction

theorem scalar_weighs {s rest : List Char} {v : Value} (h : scalar s = some (v, rest)) :
    Weighs v.weight s rest := by
  unfold scalar at h
  split at h
  · rename_i p hp
    obtain rfl := Option.some.inj h
    exact literal_weighs hp
  · obtain ⟨⟨n, r⟩, hn, heq⟩ := Option.map_eq_some_iff.mp h
    obtain ⟨rfl, rfl⟩ := Prod.mk.inj heq
    exact (number_consumes hn).weighs.le (Nat.le_of_eq (weight_number n))

/-- A character more in front. -/
theorem Weighs.cons {n : Nat} {s rest : List Char} (h : Weighs n s rest) (c : Char) :
    Weighs n (c :: s) rest := by
  have hc : Weighs 0 (c :: s) s := weighs_cut (c := [c]) (fun _ => Nat.zero_le _) s
  exact (hc.trans h).le (Nat.le_of_eq (Nat.zero_add n).symm)

/-- After blanks, up to a character. -/
theorem Weighs.upto {n : Nat} {c : Char} {s r t : List Char} (h : Weighs n s r)
    (hws : skipWs r = c :: t) : Weighs n s t := by
  have hblank := (consumes_skipWs r).weighs
  rw [hws] at hblank
  have hc : Weighs 0 (c :: t) t := weighs_cut (c := [c]) (fun _ => Nat.zero_le _) t
  exact (h.trans hblank).trans hc

/-- After blanks and one separator. -/
theorem Weighs.separator {n : Nat} {c : Char} {s r t : List Char} (h : Weighs n s r)
    (hws : skipWs r = c :: t) : Weighs n s (skipWs t) :=
  (h.upto hws).trans (consumes_skipWs t).weighs

/-- What the three mutually recursive readers weigh, at one fuel level. -/
structure FuelWeighs (fuel : Nat) : Prop where
  value : ∀ {s rest v}, parseValue fuel s = some (v, rest) → Weighs v.weight s rest
  elems : ∀ {s rest vs}, parseElems fuel s = some (vs, rest) →
    Weighs (vs.map Value.weight).sum s rest
  members : ∀ {s rest ms}, parseMembers fuel s = some (ms, rest) →
    Weighs (ms.map memberWeight).sum s rest

theorem FuelWeighs.step_value {fuel : Nat} (ih : FuelWeighs fuel) {s rest : List Char}
    {v : Value} (h : parseValue (fuel + 1) s = some (v, rest)) : Weighs v.weight s rest := by
  cases s with
  | nil => simp [parseValue] at h
  | cons c s =>
    have hblank := (consumes_skipWs s).weighs
    simp only [parseValue] at h
    split_ifs at h with hq ho ha
    · obtain ⟨⟨cs, r⟩, hs, heq⟩ := Option.map_eq_some_iff.mp h
      obtain ⟨rfl, rfl⟩ := Prod.mk.inj heq
      rw [weight_str]
      exact (scanString_weighs hs).cons c
    · split at h
      · rename_i t hws
        obtain ⟨rfl, rfl⟩ := Prod.mk.inj (Option.some.inj h)
        rw [hws] at hblank
        exact (hblank.trans (weighs_cut (c := ['}']) (fun _ => Nat.zero_le _) t)).cons c
      · obtain ⟨⟨ms, r⟩, hs, heq⟩ := Option.map_eq_some_iff.mp h
        obtain ⟨rfl, rfl⟩ := Prod.mk.inj heq
        rw [weight_obj]
        exact ((hblank.trans (ih.members hs)).cons c).le (Nat.le_of_eq (Nat.zero_add _).symm)
    · split at h
      · rename_i t hws
        obtain ⟨rfl, rfl⟩ := Prod.mk.inj (Option.some.inj h)
        rw [hws] at hblank
        exact (hblank.trans (weighs_cut (c := [']']) (fun _ => Nat.zero_le _) t)).cons c
      · obtain ⟨⟨vs, r⟩, hs, heq⟩ := Option.map_eq_some_iff.mp h
        obtain ⟨rfl, rfl⟩ := Prod.mk.inj heq
        rw [weight_arr]
        exact ((hblank.trans (ih.elems hs)).cons c).le (Nat.le_of_eq (Nat.zero_add _).symm)
    · exact scalar_weighs h

theorem FuelWeighs.step_elems {fuel : Nat} (ih : FuelWeighs fuel) {s rest : List Char}
    {vs : List Value} (h : parseElems (fuel + 1) s = some (vs, rest)) :
    Weighs (vs.map Value.weight).sum s rest := by
  simp only [parseElems] at h
  split at h
  · contradiction
  · rename_i v r hv
    split at h
    · rename_i t hws
      obtain ⟨⟨vs, r⟩, hs, heq⟩ := Option.map_eq_some_iff.mp h
      obtain ⟨rfl, rfl⟩ := Prod.mk.inj heq
      exact ((ih.value hv).separator hws).trans (ih.elems hs)
    · rename_i t hws
      obtain ⟨rfl, rfl⟩ := Prod.mk.inj (Option.some.inj h)
      exact (ih.value hv).upto hws
    · contradiction

theorem weight_key (k : List Char) : weight (encodeString (String.ofList k)) = textWeight k := by
  simpa [Value.weight, encode] using weight_str k

theorem FuelWeighs.step_members {fuel : Nat} (ih : FuelWeighs fuel) {s rest : List Char}
    {ms : Members} (h : parseMembers (fuel + 1) s = some (ms, rest)) :
    Weighs (ms.map memberWeight).sum s rest := by
  cases s with
  | nil => simp [parseMembers] at h
  | cons q s =>
    simp only [parseMembers] at h
    split at h
    · split at h
      · contradiction
      · rename_i k r hk
        split at h
        · rename_i r' hcolon
          have hkey := ((scanString_weighs hk).cons q).separator hcolon
          split at h
          · contradiction
          · rename_i v r'' hv
            have hmember : Weighs (memberWeight (String.ofList k, v)) (q :: s) r'' := by
              rw [memberWeight, weight_key]
              exact hkey.trans (ih.value hv)
            split at h
            · rename_i t hws
              obtain ⟨⟨ms, u⟩, hs, heq⟩ := Option.map_eq_some_iff.mp h
              obtain ⟨rfl, rfl⟩ := Prod.mk.inj heq
              exact (hmember.separator hws).trans (ih.members hs)
            · rename_i t hws
              obtain ⟨rfl, rfl⟩ := Prod.mk.inj (Option.some.inj h)
              exact hmember.upto hws
            · contradiction
        · contradiction
    · contradiction

theorem fuelWeighs (fuel : Nat) : FuelWeighs fuel := by
  induction fuel with
  | zero => constructor <;> intro s rest v h <;> simp [parseValue, parseElems, parseMembers] at h
  | succ fuel ih => exact ⟨ih.step_value, ih.step_elems, ih.step_members⟩

theorem loads_weight {s : List Char} (hs : ∀ c ∈ s, c.toNat ≤ 0x7e) {v : Value}
    (h : loads s = some v) : v.weight ≤ weight s := by
  unfold loads at h
  split at h
  · rename_i w r hparse
    split at h
    · obtain rfl := Option.some.inj h
      obtain ⟨c, hc, hle⟩ := (consumes_skipWs s).weighs.trans ((fuelWeighs _).value hparse)
      have hlow : ∀ x ∈ c, x.toNat ≤ 0x7e := fun x hx => hs x (hc ▸ List.mem_append_left r hx)
      rw [hc, weight_append, ← Nat.zero_add w.weight]
      exact Nat.le_trans (hle hlow) (Nat.le_add_right _ _)
    · contradiction
  · contradiction

/-! ## Dictionaries, columns and sorted keys -/

theorem sum_le_sum_map {α : Type} {f g : α → Nat} {xs : List α} (h : ∀ x ∈ xs, f x ≤ g x) :
    (xs.map f).sum ≤ (xs.map g).sum := by
  induction xs with
  | nil => exact Nat.le_refl 0
  | cons x xs ih =>
    rw [List.map_cons, List.map_cons, List.sum_cons, List.sum_cons]
    exact Nat.add_le_add (h x List.mem_cons_self) (ih fun y hy => h y (List.mem_cons_of_mem x hy))

theorem dictSet_weight (ms : Members) (k : String) (v : Value) :
    ((dictSet ms k v).map memberWeight).sum ≤ (ms.map memberWeight).sum + memberWeight (k, v) := by
  induction ms with
  | nil => simp [dictSet]
  | cons m ms ih =>
    rw [dictSet]
    split <;> simp only [List.map_cons, List.sum_cons] <;> omega

theorem dictOf_weight (ms : Members) :
    ((dictOf ms).map memberWeight).sum ≤ (ms.map memberWeight).sum := by
  induction ms using List.reverseRecOn with
  | nil => exact Nat.le_refl 0
  | append_singleton ms m ih =>
    have hset := dictSet_weight (dictOf ms) m.1 m.2
    rw [dictOf, List.foldl_append, ← dictOf, List.foldl_cons, List.foldl_nil, List.map_append,
      List.sum_append, List.map_singleton, List.sum_singleton]
    exact Nat.le_trans hset (Nat.add_le_add_right ih _)

theorem memberWeight_le {m : String × Value} {v : Value} (h : v.weight ≤ m.2.weight) :
    memberWeight (m.1, v) ≤ memberWeight m := Nat.add_le_add_left h _

theorem dicts_weight (v : Value) : v.dicts.weight ≤ v.weight := by
  induction v using Value.inductionOn with
  | null | bool | int | float | str => exact Nat.le_refl _
  | arr xs ih =>
    rw [Value.dicts, dictsElems_eq_map, weight_arr, weight_arr, List.map_map]
    exact sum_le_sum_map ih
  | obj ms ih =>
    rw [Value.dicts, dictsMembers_eq_map, weight_obj, weight_obj]
    refine Nat.le_trans (dictOf_weight _) ?_
    rw [List.map_map]
    exact sum_le_sum_map fun m hm => memberWeight_le (ih m hm)

theorem jsonb_weight (v : Value) : v.jsonb.weight ≤ v.weight := by
  induction v using Value.inductionOn with
  | null | bool | int | str => exact Nat.le_refl _
  | float x =>
    have hzero : x.jsonb.weight = 0 := by
      unfold PyFloat.jsonb
      split
      · exact weight_number (.float _)
      · split
        · exact weight_number (.int _)
        · exact weight_number (.float _)
      · exact weight_number (.float _)
    rw [Value.jsonb, hzero]
    exact Nat.zero_le _
  | arr xs ih =>
    rw [jsonb_arr, weight_arr, weight_arr, List.map_map]
    exact sum_le_sum_map ih
  | obj ms ih =>
    obtain ⟨ms', heq, hp⟩ := jsonb_obj ms
    rw [heq, weight_obj, weight_obj, (hp.map memberWeight).sum_nat, List.map_map]
    exact sum_le_sum_map fun m hm => memberWeight_le (ih m hm)

theorem sortKeys_weight (v : Value) : v.sortKeys.weight ≤ v.weight := by
  induction v using Value.inductionOn with
  | null | bool | int | float | str => exact Nat.le_refl _
  | arr xs ih =>
    rw [sortKeys_arr, weight_arr, weight_arr, List.map_map]
    exact sum_le_sum_map ih
  | obj ms ih =>
    obtain ⟨ms', heq, hp⟩ := sortKeys_obj ms
    rw [heq, weight_obj, weight_obj, (hp.map memberWeight).sum_nat, List.map_map]
    exact sum_le_sum_map fun m hm => memberWeight_le (ih m hm)

end SpineFormal.Json
