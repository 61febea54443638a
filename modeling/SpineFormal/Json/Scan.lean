import Mathlib.Data.List.TakeWhile
import SpineFormal.Json.Text

/-!
# Nesting scan of JSON text

A quote-aware bracket counter. Every text the parser consumes returns the
counter to where it started, so a document cut in two never parses as one: a
cut at positive depth leaves a bracket open, and a cut inside a string literal
exchanges the inside and the outside of every later literal.
-/

namespace SpineFormal.Json

set_option autoImplicit false

/-- What a character can do to the token structure. -/
inductive Kind where
  | quote
  | backslash
  | opening
  | closing
  | other
  deriving DecidableEq

def kindOf (c : Char) : Kind :=
  if c = '"' then .quote
  else if c = '\\' then .backslash
  else if c = '{' ∨ c = '[' then .opening
  else if c = '}' ∨ c = ']' then .closing
  else .other

inductive Mode where
  | outside
  | inside
  | escaped

/-- Position in the token structure: string mode and bracket depth. -/
structure Scan where
  mode : Mode
  depth : Nat

/-- One character; `none` on a closing bracket at depth zero and on a backslash
outside a string. -/
def scanKind : Scan → Kind → Option Scan
  | ⟨.outside, d⟩, .quote => some ⟨.inside, d⟩
  | ⟨.outside, _⟩, .backslash => none
  | ⟨.outside, d⟩, .opening => some ⟨.outside, d + 1⟩
  | ⟨.outside, 0⟩, .closing => none
  | ⟨.outside, d + 1⟩, .closing => some ⟨.outside, d⟩
  | ⟨.outside, d⟩, .other => some ⟨.outside, d⟩
  | ⟨.inside, d⟩, .quote => some ⟨.outside, d⟩
  | ⟨.inside, d⟩, .backslash => some ⟨.escaped, d⟩
  | ⟨.inside, d⟩, _ => some ⟨.inside, d⟩
  | ⟨.escaped, d⟩, _ => some ⟨.inside, d⟩

def scan : Scan → List Char → Option Scan
  | st, [] => some st
  | st, c :: s => (scanKind st (kindOf c)).bind fun st' => scan st' s

@[simp] theorem scan_nil (st : Scan) : scan st [] = some st := rfl

theorem scan_cons (st : Scan) (c : Char) (s : List Char) :
    scan st (c :: s) = (scanKind st (kindOf c)).bind fun st' => scan st' s := rfl

theorem scan_append (st : Scan) (s t : List Char) :
    scan st (s ++ t) = (scan st s).bind fun st' => scan st' t := by
  induction s generalizing st with
  | nil => rfl
  | cons c s ih =>
    simp only [List.cons_append, scan_cons]
    cases scanKind st (kindOf c) with
    | none => rfl
    | some st' => exact ih st'

/-- Depth is only compared with zero, so a run can be lifted. -/
theorem scanKind_lift {st st' : Scan} {c : Kind} (k : Nat) (h : scanKind st c = some st') :
    scanKind ⟨st.mode, st.depth + k⟩ c = some ⟨st'.mode, st'.depth + k⟩ := by
  obtain ⟨m, d⟩ := st
  cases m with
  | outside =>
    cases c with
    | backslash => simp [scanKind] at h
    | closing =>
      cases d with
      | zero => simp [scanKind] at h
      | succ d =>
        obtain rfl := Option.some.inj h
        rw [show d + 1 + k = d + k + 1 by omega]
        rfl
    | opening =>
      obtain rfl := Option.some.inj h
      simp only [scanKind, Option.some.injEq, Scan.mk.injEq, true_and]
      omega
    | quote => obtain rfl := Option.some.inj h; rfl
    | other => obtain rfl := Option.some.inj h; rfl
  | inside => cases c <;> (obtain rfl := Option.some.inj h; rfl)
  | escaped => cases c <;> (obtain rfl := Option.some.inj h; rfl)

theorem scan_lift {st st' : Scan} {s : List Char} (k : Nat) (h : scan st s = some st') :
    scan ⟨st.mode, st.depth + k⟩ s = some ⟨st'.mode, st'.depth + k⟩ := by
  induction s generalizing st with
  | nil =>
    obtain rfl : st = st' := by simpa using h
    rfl
  | cons c s ih =>
    simp only [scan_cons, Option.bind_eq_some_iff] at h ⊢
    obtain ⟨mid, hmid, hrest⟩ := h
    exact ⟨_, scanKind_lift k hmid, ih hrest⟩

/-- Read from outside and ending outside: complete tokens, balanced brackets. -/
def Balanced (s : List Char) : Prop := scan ⟨.outside, 0⟩ s = some ⟨.outside, 0⟩

theorem Balanced.at_depth {s : List Char} (h : Balanced s) (d : Nat) :
    scan ⟨.outside, d⟩ s = some ⟨.outside, d⟩ := by
  simpa using scan_lift d h

theorem Balanced.append {s t : List Char} (hs : Balanced s) (ht : Balanced t) :
    Balanced (s ++ t) := by
  unfold Balanced at *
  rw [scan_append, hs]
  exact ht

/-- Characters that neither open nor close anything outside a string. -/
def Plain (c : Char) : Prop := kindOf c = .other

instance (c : Char) : Decidable (Plain c) := inferInstanceAs (Decidable (kindOf c = .other))

theorem plain_of_ne {c : Char} (h : c ≠ '"' ∧ c ≠ '\\' ∧ c ≠ '{' ∧ c ≠ '[' ∧ c ≠ '}' ∧ c ≠ ']') :
    Plain c := by
  obtain ⟨h1, h2, h3, h4, h5, h6⟩ := h
  simp [Plain, kindOf, h1, h2, h3, h4, h5, h6]

theorem balanced_plain {s : List Char} (h : ∀ c ∈ s, Plain c) : Balanced s := by
  induction s with
  | nil => rfl
  | cons c s ih =>
    have hc : kindOf c = .other := h c List.mem_cons_self
    have hs := ih fun d hd => h d (List.mem_cons_of_mem c hd)
    simpa [Balanced, scan_cons, hc, scanKind] using hs

theorem balanced_bracket {o c : Char} (ho : kindOf o = .opening) (hc : kindOf c = .closing)
    {s : List Char} (h : Balanced s) : Balanced (o :: (s ++ [c])) := by
  simp [Balanced, scan_cons, ho, scanKind, scan_append, h.at_depth 1, hc]

/-- Two runs, one inside a literal and the other outside. -/
def OutOfPhase (p q : Scan) : Prop :=
  (p.mode = .outside ∧ q.mode = .inside) ∨ (p.mode = .inside ∧ q.mode = .outside)

/-- Out of phase is kept by every character both runs survive: quotes exchange
the modes, and a backslash, legal only inside, stops one of the runs. -/
theorem OutOfPhase.step {p q p' q' : Scan} {c : Kind} (h : OutOfPhase p q)
    (hp : scanKind p c = some p') (hq : scanKind q c = some q') : OutOfPhase p' q' := by
  obtain ⟨pm, pd⟩ := p
  obtain ⟨qm, qd⟩ := q
  rcases h with ⟨rfl, rfl⟩ | ⟨rfl, rfl⟩
  · cases c with
    | quote =>
      obtain rfl := Option.some.inj hp
      obtain rfl := Option.some.inj hq
      exact Or.inr ⟨rfl, rfl⟩
    | backslash => simp [scanKind] at hp
    | closing =>
      cases pd with
      | zero => simp [scanKind] at hp
      | succ pd =>
        obtain rfl := Option.some.inj hp
        obtain rfl := Option.some.inj hq
        exact Or.inl ⟨rfl, rfl⟩
    | opening | other =>
      obtain rfl := Option.some.inj hp
      obtain rfl := Option.some.inj hq
      exact Or.inl ⟨rfl, rfl⟩
  · cases c with
    | quote =>
      obtain rfl := Option.some.inj hp
      obtain rfl := Option.some.inj hq
      exact Or.inl ⟨rfl, rfl⟩
    | backslash => simp [scanKind] at hq
    | closing =>
      cases qd with
      | zero => simp [scanKind] at hq
      | succ qd =>
        obtain rfl := Option.some.inj hp
        obtain rfl := Option.some.inj hq
        exact Or.inr ⟨rfl, rfl⟩
    | opening | other =>
      obtain rfl := Option.some.inj hp
      obtain rfl := Option.some.inj hq
      exact Or.inr ⟨rfl, rfl⟩

theorem OutOfPhase.run {p q p' q' : Scan} {s : List Char} (h : OutOfPhase p q)
    (hp : scan p s = some p') (hq : scan q s = some q') : OutOfPhase p' q' := by
  induction s generalizing p q with
  | nil =>
    obtain rfl : p = p' := by simpa using hp
    obtain rfl : q = q' := by simpa using hq
    exact h
  | cons c s ih =>
    simp only [scan_cons, Option.bind_eq_some_iff] at hp hq
    obtain ⟨p1, hp1, hp⟩ := hp
    obtain ⟨q1, hq1, hq⟩ := hq
    exact ih (h.step hp1 hq1) hp hq

/-- A run from inside a literal does not end outside where a run from outside does. -/
theorem scan_inside_ne {s : List Char} {a b d e : Nat}
    (h : scan ⟨.outside, a⟩ s = some ⟨.outside, b⟩) : scan ⟨.inside, d⟩ s ≠ some ⟨.outside, e⟩ := by
  intro hin
  have hphase : OutOfPhase ⟨.outside, a⟩ ⟨.inside, d⟩ := Or.inl ⟨rfl, rfl⟩
  rcases hphase.run h hin with ⟨_, h⟩ | ⟨h, _⟩ <;> cases h

/-! ## The parser consumes balanced text -/

/-- `rest` is what remains of `s` after balanced text. -/
def Consumes (s rest : List Char) : Prop := ∃ c, s = c ++ rest ∧ Balanced c

theorem Consumes.refl (s : List Char) : Consumes s s := ⟨[], rfl, rfl⟩

theorem Consumes.trans {s t u : List Char} (hst : Consumes s t) (htu : Consumes t u) :
    Consumes s u := by
  obtain ⟨c, rfl, hc⟩ := hst
  obtain ⟨d, rfl, hd⟩ := htu
  exact ⟨c ++ d, by simp, hc.append hd⟩

theorem consumes_plain {c : List Char} (h : ∀ x ∈ c, Plain x) (rest : List Char) :
    Consumes (c ++ rest) rest := ⟨c, rfl, balanced_plain h⟩

theorem plain_of_isWs {c : Char} (h : isWs c = true) : Plain c := by
  simp only [isWs, Bool.or_eq_true, beq_iff_eq] at h
  rcases h with ((rfl | rfl) | rfl) | rfl <;> rfl

theorem consumes_skipWs (s : List Char) : Consumes s (skipWs s) := by
  have h := consumes_plain (c := s.takeWhile isWs)
    (fun x hx => plain_of_isWs (List.mem_takeWhile_imp hx)) (skipWs s)
  simpa [skipWs, List.takeWhile_append_dropWhile] using h

theorem plain_of_isDigit {c : Char} (h : c.isDigit = true) : Plain c :=
  plain_of_ne ⟨isDigit_ne h rfl, isDigit_ne h rfl, isDigit_ne h rfl, isDigit_ne h rfl,
    isDigit_ne h rfl, isDigit_ne h rfl⟩

theorem consumes_cons {c : Char} (h : Plain c) (s : List Char) : Consumes (c :: s) s :=
  consumes_plain (c := [c]) (by simpa using h) s

/-! ## The characters of numbers and constants -/

/-- `rest` is what remains of `s` after characters of one kind. -/
def Passes (P : Char → Prop) (s rest : List Char) : Prop := ∃ c, s = c ++ rest ∧ ∀ x ∈ c, P x

/-- The characters of numbers and constants other than digits. -/
def scalarLetters : List Char := "+-.eENaInfinitynulltruefalse".toList

section
variable {P : Char → Prop}

theorem Passes.refl (s : List Char) : Passes P s s := ⟨[], rfl, List.forall_mem_nil _⟩

theorem Passes.trans {s t u : List Char} (hst : Passes P s t) (htu : Passes P t u) :
    Passes P s u := by
  obtain ⟨c, rfl, hc⟩ := hst
  obtain ⟨d, rfl, hd⟩ := htu
  exact ⟨c ++ d, by rw [List.append_assoc], List.forall_mem_append.mpr ⟨hc, hd⟩⟩

theorem passes_cons {c : Char} (h : P c) (s : List Char) : Passes P (c :: s) s :=
  ⟨[c], rfl, List.forall_mem_singleton.mpr h⟩

variable (hdigit : ∀ c : Char, c.isDigit = true → P c)
include hdigit

theorem passes_digits (s : List Char) : Passes P s (s.dropWhile Char.isDigit) :=
  ⟨s.takeWhile Char.isDigit, List.takeWhile_append_dropWhile.symm,
    fun x hx => hdigit x (List.mem_takeWhile_imp hx)⟩

theorem intPart_passes {s i rest : List Char} (h : intPart s = some (i, rest)) :
    Passes P s rest := by
  unfold intPart at h
  split at h
  · contradiction
  · obtain ⟨_, rfl⟩ := Prod.mk.inj (Option.some.inj h)
    exact passes_cons (hdigit '0' rfl) _
  · split at h
    · rename_i hd
      obtain ⟨_, rfl⟩ := Prod.mk.inj (Option.some.inj h)
      exact (passes_cons (hdigit _ hd) _).trans (passes_digits hdigit _)
    · contradiction

variable (hletter : ∀ c ∈ scalarLetters, P c)
include hletter

theorem fracPart_passes (s : List Char) : Passes P s (fracPart s).2 := by
  unfold fracPart
  split
  · split
    · exact .refl _
    · exact (passes_cons (hletter '.' (by decide)) _).trans (passes_digits hdigit _)
  · exact .refl _

omit hdigit in
theorem signedDigits_passes (s : List Char) : Passes P s (signedDigits s).2 := by
  unfold signedDigits
  split
  · exact passes_cons (hletter '-' (by decide)) _
  · exact passes_cons (hletter '+' (by decide)) _
  · exact .refl _

theorem expPart_passes (s : List Char) : Passes P s (expPart s).2 := by
  unfold expPart
  split
  · exact .refl _
  · split
    · rename_i hc
      have hexp : ∀ c : Char, c = 'e' ∨ c = 'E' → P c := by
        rintro c (rfl | rfl)
        · exact hletter 'e' (by decide)
        · exact hletter 'E' (by decide)
      exact (passes_cons (hexp _ hc.1) _).trans
        ((signedDigits_passes hletter _).trans (passes_digits hdigit _))
    · exact .refl _

theorem unsignedNumber_passes {neg : Bool} {s rest : List Char} {n : Number}
    (h : unsignedNumber neg s = some (n, rest)) : Passes P s rest := by
  unfold unsignedNumber at h
  split at h
  · contradiction
  · rename_i i r hi
    have hrest : (expPart (fracPart r).2).2 = rest := by
      dsimp only at h
      split at h <;> exact (Prod.mk.inj (Option.some.inj h)).2
    subst hrest
    exact (intPart_passes hdigit hi).trans
      ((fracPart_passes hdigit hletter r).trans (expPart_passes hdigit hletter _))

theorem number_passes {s rest : List Char} {n : Number} (h : number s = some (n, rest)) :
    Passes P s rest := by
  unfold number at h
  split at h
  · exact (passes_cons (hletter '-' (by decide)) _).trans (unsignedNumber_passes hdigit hletter h)
  · exact unsignedNumber_passes hdigit hletter h

omit hdigit in
theorem literal_passes {s rest : List Char} {v : Value} (h : literal s = some (v, rest)) :
    Passes P s rest := by
  obtain ⟨p, hp, hsome⟩ := List.exists_of_findSome?_eq_some h
  split at hsome
  · rename_i hpre
    obtain ⟨_, rfl⟩ := Prod.mk.inj (Option.some.inj hsome)
    obtain ⟨t, rfl⟩ := List.isPrefixOf_iff_prefix.mp hpre
    have hletters : ∀ p ∈ literals, p.1.all (fun c => c ∈ scalarLetters) = true := by decide
    rw [List.drop_left]
    exact ⟨p.1, rfl, fun x hx => hletter x (List.all_iff_forall_prop.mp (hletters p hp) x hx)⟩
  · contradiction

theorem scalar_passes {s rest : List Char} {v : Value} (h : scalar s = some (v, rest)) :
    Passes P s rest := by
  unfold scalar at h
  split at h
  · rename_i p hp
    obtain rfl := Option.some.inj h
    exact literal_passes hletter hp
  · simp only [Option.map_eq_some_iff] at h
    obtain ⟨⟨n, r⟩, hn, heq⟩ := h
    obtain ⟨_, rfl⟩ := Prod.mk.inj heq
    exact number_passes hdigit hletter hn

end

theorem Passes.consumes {s rest : List Char} (h : Passes Plain s rest) : Consumes s rest := by
  obtain ⟨c, rfl, hc⟩ := h
  exact consumes_plain hc rest

theorem plain_scalarLetters : ∀ c ∈ scalarLetters, Plain c :=
  List.all_iff_forall_prop.mp (by decide)

theorem number_consumes {s rest : List Char} {n : Number} (h : number s = some (n, rest)) :
    Consumes s rest :=
  (number_passes (fun _ => plain_of_isDigit) plain_scalarLetters h).consumes

theorem scalar_consumes {s rest : List Char} {v : Value} (h : scalar s = some (v, rest)) :
    Consumes s rest :=
  (scalar_passes (fun _ => plain_of_isDigit) plain_scalarLetters h).consumes

/-- The rest of a string literal, from inside it to just after its closing quote. -/
def Closes (s rest : List Char) : Prop :=
  ∃ c, s = c ++ rest ∧ ∀ d, scan ⟨.inside, d⟩ c = some ⟨.outside, d⟩

theorem Closes.cons {s rest : List Char} {c : Char} (hc : kindOf c ≠ .quote ∧ kindOf c ≠ .backslash)
    (h : Closes s rest) : Closes (c :: s) rest := by
  obtain ⟨t, rfl, ht⟩ := h
  refine ⟨c :: t, rfl, fun d => ?_⟩
  have hstep : scanKind ⟨.inside, d⟩ (kindOf c) = some ⟨.inside, d⟩ := by
    cases hk : kindOf c <;> simp_all [scanKind]
  simp [scan_cons, hstep, ht d]

theorem Closes.escape {s rest : List Char} (e : Char) (h : Closes s rest) :
    Closes ('\\' :: e :: s) rest := by
  obtain ⟨t, rfl, ht⟩ := h
  refine ⟨'\\' :: e :: t, rfl, fun d => ?_⟩
  have hstep : scanKind ⟨.escaped, d⟩ (kindOf e) = some ⟨.inside, d⟩ := by cases kindOf e <;> rfl
  have hback : scanKind ⟨.inside, d⟩ (kindOf '\\') = some ⟨.escaped, d⟩ := rfl
  simp [scan_cons, hback, hstep, ht d]

theorem kindOf_ne {c : Char} (hq : c ≠ '"') (hb : c ≠ '\\') :
    kindOf c ≠ .quote ∧ kindOf c ≠ .backslash := by
  unfold kindOf
  split_ifs <;> simp_all

theorem kindOf_hex {c : Char} {n : Nat} (h : hexVal c = some n) :
    kindOf c ≠ .quote ∧ kindOf c ≠ .backslash := by
  apply kindOf_ne
  · rintro rfl
    simp [hexVal, Numerals.digitVal] at h
  · rintro rfl
    simp [hexVal, Numerals.digitVal] at h

theorem Closes.hex4 {a b c d : Char} {u : Nat} {s rest : List Char}
    (h4 : hex4 a b c d = some u) (h : Closes s rest) : Closes (a :: b :: c :: d :: s) rest := by
  unfold Json.hex4 at h4
  split at h4
  · rename_i ha hb hc hd
    exact (((h.cons (kindOf_hex hd)).cons (kindOf_hex hc)).cons (kindOf_hex hb)).cons (kindOf_hex ha)
  · contradiction

theorem scanUnits_map {t rest : List Char} {us : List Nat} {u : Nat}
    (h : ((scanUnits t).map fun p => (u :: p.1, p.2)) = some (us, rest)) :
    ∃ us', scanUnits t = some (us', rest) := by
  obtain ⟨⟨us', r⟩, hs, heq⟩ := Option.map_eq_some_iff.mp h
  obtain ⟨_, rfl⟩ := Prod.mk.inj heq
  exact ⟨us', hs⟩

theorem scanUnits_closes {s rest : List Char} {us : List Nat} (h : scanUnits s = some (us, rest)) :
    Closes s rest := by
  fun_induction scanUnits s generalizing us with
  | case1 | case3 | case5 | case7 => contradiction
  | case2 s =>
    obtain ⟨_, rfl⟩ := Prod.mk.inj (Option.some.inj h)
    exact ⟨['"'], rfl, fun d => rfl⟩
  | case4 a b c d s u hu ih =>
    obtain ⟨us', hs⟩ := scanUnits_map h
    exact (Closes.hex4 hu (ih hs)).escape 'u'
  | case6 e s _ c _ ih =>
    obtain ⟨us', hs⟩ := scanUnits_map h
    exact (ih hs).escape e
  | case8 c s hq _ _ hc ih =>
    obtain ⟨us', hs⟩ := scanUnits_map h
    refine (ih hs).cons (kindOf_ne hq fun hb => hc (Or.inl hb))

theorem scanString_closes {s cs rest : List Char} (h : scanString s = some (cs, rest)) :
    Closes s rest := by
  obtain ⟨⟨us, r⟩, hs, heq⟩ := Option.map_eq_some_iff.mp h
  obtain ⟨_, rfl⟩ := Prod.mk.inj heq
  exact scanUnits_closes hs

theorem Closes.consumes {s rest : List Char} (h : Closes s rest) : Consumes ('"' :: s) rest := by
  obtain ⟨t, rfl, ht⟩ := h
  refine ⟨'"' :: t, rfl, ?_⟩
  have hquote : scanKind ⟨.outside, 0⟩ (kindOf '"') = some ⟨.inside, 0⟩ := rfl
  simp [Balanced, scan_cons, hquote, ht 0]

/-- What stands between an opening and its closing bracket. -/
theorem Consumes.bracket {o c : Char} (ho : kindOf o = .opening) (hc : kindOf c = .closing)
    {s rest : List Char} (h : Consumes s (c :: rest)) : Consumes (o :: s) rest := by
  obtain ⟨t, rfl, ht⟩ := h
  exact ⟨o :: (t ++ [c]), by simp, balanced_bracket ho hc ht⟩

/-- After blanks and one separator. -/
theorem Consumes.separator {c : Char} (hc : Plain c) {s r t : List Char} (h : Consumes s r)
    (hws : skipWs r = c :: t) : Consumes s (skipWs t) := by
  have hblank := consumes_skipWs r
  rw [hws] at hblank
  exact h.trans (hblank.trans ((consumes_cons hc t).trans (consumes_skipWs t)))

/-- After blanks, up to the bracket that ends the list. -/
theorem Consumes.upto {c : Char} {s r t : List Char} (h : Consumes s r)
    (hws : skipWs r = c :: t) : Consumes s (c :: t) := by
  have hblank := consumes_skipWs r
  rw [hws] at hblank
  exact h.trans hblank

/-- What the three mutually recursive readers consume, at one fuel level. -/
structure FuelConsumes (fuel : Nat) : Prop where
  value : ∀ {s rest v}, parseValue fuel s = some (v, rest) → Consumes s rest
  elems : ∀ {s rest vs}, parseElems fuel s = some (vs, rest) → Consumes s (']' :: rest)
  members : ∀ {s rest ms}, parseMembers fuel s = some (ms, rest) → Consumes s ('}' :: rest)

theorem FuelConsumes.step_value {fuel : Nat} (ih : FuelConsumes fuel) {s rest : List Char}
    {v : Value} (h : parseValue (fuel + 1) s = some (v, rest)) : Consumes s rest := by
  cases s with
  | nil => simp [parseValue] at h
  | cons c s =>
    simp only [parseValue] at h
    split_ifs at h with hq ho ha
    · obtain ⟨⟨cs, r⟩, hs, heq⟩ := Option.map_eq_some_iff.mp h
      obtain ⟨_, rfl⟩ := Prod.mk.inj heq
      exact hq ▸ (scanString_closes hs).consumes
    · subst ho
      have hblank := consumes_skipWs s
      split at h
      · rename_i t hws
        obtain ⟨_, rfl⟩ := Prod.mk.inj (Option.some.inj h)
        exact (hws ▸ hblank).bracket rfl rfl
      · obtain ⟨⟨ms, r⟩, hs, heq⟩ := Option.map_eq_some_iff.mp h
        obtain ⟨_, rfl⟩ := Prod.mk.inj heq
        exact (hblank.trans (ih.members hs)).bracket rfl rfl
    · subst ha
      have hblank := consumes_skipWs s
      split at h
      · rename_i t hws
        obtain ⟨_, rfl⟩ := Prod.mk.inj (Option.some.inj h)
        exact (hws ▸ hblank).bracket rfl rfl
      · obtain ⟨⟨vs, r⟩, hs, heq⟩ := Option.map_eq_some_iff.mp h
        obtain ⟨_, rfl⟩ := Prod.mk.inj heq
        exact (hblank.trans (ih.elems hs)).bracket rfl rfl
    · exact scalar_consumes h

theorem FuelConsumes.step_elems {fuel : Nat} (ih : FuelConsumes fuel) {s rest : List Char}
    {vs : List Value} (h : parseElems (fuel + 1) s = some (vs, rest)) :
    Consumes s (']' :: rest) := by
  simp only [parseElems] at h
  split at h
  · contradiction
  · rename_i v r hv
    split at h
    · rename_i t hws
      obtain ⟨⟨vs, r⟩, hs, heq⟩ := Option.map_eq_some_iff.mp h
      obtain ⟨_, rfl⟩ := Prod.mk.inj heq
      exact ((ih.value hv).separator (c := ',') rfl hws).trans (ih.elems hs)
    · rename_i t hws
      obtain ⟨_, rfl⟩ := Prod.mk.inj (Option.some.inj h)
      exact (ih.value hv).upto hws
    · contradiction

theorem FuelConsumes.step_members {fuel : Nat} (ih : FuelConsumes fuel) {s rest : List Char}
    {ms : Members} (h : parseMembers (fuel + 1) s = some (ms, rest)) :
    Consumes s ('}' :: rest) := by
  cases s with
  | nil => simp [parseMembers] at h
  | cons q s =>
    simp only [parseMembers] at h
    split at h
    · rename_i hq
      subst hq
      split at h
      · contradiction
      · rename_i k r hk
        split at h
        · rename_i r' hcolon
          have hkey := (scanString_closes hk).consumes.separator (c := ':') rfl hcolon
          split at h
          · contradiction
          · rename_i v r'' hv
            split at h
            · rename_i t hws
              obtain ⟨⟨ms, u⟩, hs, heq⟩ := Option.map_eq_some_iff.mp h
              obtain ⟨_, rfl⟩ := Prod.mk.inj heq
              exact ((hkey.trans (ih.value hv)).separator (c := ',') rfl hws).trans (ih.members hs)
            · rename_i t hws
              obtain ⟨_, rfl⟩ := Prod.mk.inj (Option.some.inj h)
              exact (hkey.trans (ih.value hv)).upto hws
            · contradiction
        · contradiction
    · contradiction

theorem fuelConsumes (fuel : Nat) : FuelConsumes fuel := by
  induction fuel with
  | zero => constructor <;> intro s rest v h <;> simp [parseValue, parseElems, parseMembers] at h
  | succ fuel ih => exact ⟨ih.step_value, ih.step_elems, ih.step_members⟩

theorem loads_balanced {s : List Char} {v : Value} (h : loads s = some v) : Balanced s := by
  unfold loads at h
  split at h
  · rename_i w r hparse
    split at h
    · rename_i hend
      have htail := consumes_skipWs r
      rw [hend] at htail
      obtain ⟨c, hc, hbal⟩ :=
        (consumes_skipWs s).trans (((fuelConsumes _).value hparse).trans htail)
      rw [hc, List.append_nil]
      exact hbal
    · contradiction
  · contradiction

theorem balanced_encode (v : Value) : Balanced (encode v) := loads_balanced (loads_encode v)

/-! ## Cut documents -/

theorem Balanced.scan_open_ne {s : List Char} (h : Balanced s) (m : Mode) (d : Nat) :
    scan ⟨m, d + 1⟩ s ≠ some ⟨.outside, 0⟩ := by
  intro hopen
  cases m with
  | outside => simp [h.at_depth (d + 1)] at hopen
  | inside => exact scan_inside_ne h hopen
  | escaped =>
    cases s with
    | nil => simp at hopen
    | cons c s =>
      -- the first character is taken literally by one run and as a token by the other
      have hlit : scanKind ⟨.escaped, d + 1⟩ (kindOf c) = some ⟨.inside, d + 1⟩ := by
        cases kindOf c <;> rfl
      simp only [scan_cons, hlit, Option.bind_some] at hopen
      unfold Balanced at h
      rw [scan_cons] at h
      cases hc : kindOf c with
      | quote =>
        simp only [hc, scanKind, Option.bind_some] at h
        have hlift := scan_lift (d + 1) h
        rw [Nat.zero_add, hopen] at hlift
        simp at hlift
      | backslash | closing => simp [hc, scanKind] at h
      | opening | other =>
        simp only [hc, scanKind, Option.bind_some] at h
        exact scan_inside_ne h hopen

theorem balanced_members (ms : Members) : Balanced (joinWith ',' (ms.map encodeMember)) := by
  by_cases hne : ms = []
  · subst hne
    rfl
  · have hread := parseMembers_encode hne (fun m _ => reads m.2) _ [] (Nat.lt_succ_self _)
    obtain ⟨c, heq, hbal⟩ := (fuelConsumes _).members hread
    obtain rfl := List.append_cancel_right heq
    exact hbal

theorem encode_obj_cut {ms : Members} {x y : List Char} (h : encode (.obj ms) = x ++ y)
    (hx : x ≠ []) (hy : y ≠ []) : ∃ m d, scan ⟨.outside, 0⟩ x = some ⟨m, d + 1⟩ := by
  obtain ⟨o, x, rfl⟩ := List.exists_cons_of_ne_nil hx
  obtain ⟨y', c, rfl⟩ := List.eq_nil_or_concat y |>.resolve_left hy
  rw [encode_obj, List.cons_append, List.cons.injEq, List.concat_eq_append, ← List.append_assoc] at h
  obtain ⟨rfl, h⟩ := h
  have hbody : joinWith ',' (ms.map encodeMember) = x ++ y' := (List.append_inj' h rfl).1
  have hbal := balanced_members ms
  rw [hbody] at hbal
  unfold Balanced at hbal
  rw [scan_append, Option.bind_eq_some_iff] at hbal
  obtain ⟨⟨m, d⟩, hscan, _⟩ := hbal
  have hlift := scan_lift 1 hscan
  exact ⟨m, d, by simpa [scan_cons, kindOf, scanKind] using hlift⟩

theorem loads_prefix {ms : Members} {x y : List Char} (h : encode (.obj ms) = x ++ y)
    (hx : x ≠ []) (hy : y ≠ []) : loads x = none := by
  obtain ⟨m, d, hscan⟩ := encode_obj_cut h hx hy
  cases hl : loads x with
  | none => rfl
  | some v =>
    have hbal := loads_balanced hl
    rw [Balanced, hscan] at hbal
    simp at hbal

theorem loads_suffix {ms : Members} {x y : List Char} (h : encode (.obj ms) = x ++ y)
    (hx : x ≠ []) (hy : y ≠ []) : loads y = none := by
  obtain ⟨m, d, hscan⟩ := encode_obj_cut h hx hy
  have hbal := balanced_encode (.obj ms)
  rw [h, Balanced, scan_append, hscan, Option.bind_some] at hbal
  cases hy : loads y with
  | none => rfl
  | some v => exact absurd hbal ((loads_balanced hy).scan_open_ne m d)

/-- A torn document with another written after it is no document: the first
either left a bracket open or is followed by more than blanks. -/
theorem loads_torn {ms ms' : Members} {x y : List Char} (h : encode (.obj ms) = x ++ y)
    (hx : x ≠ []) : loads (x ++ encode (.obj ms')) = none := by
  by_cases hy : y = []
  · subst hy
    rw [List.append_nil] at h
    subst h
    have hskip : skipWs (encode (.obj ms')) = encode (.obj ms') := by
      simpa using skipWs_encode (.obj ms') []
    have hne : encode (.obj ms') ≠ [] := List.ne_nil_of_length_pos (encode_length_pos _)
    have hparse := parseValue_encode_obj ms (encode (.obj ms'))
      (show _ ≤ 2 * (encode (.obj ms) ++ encode (.obj ms')).length by simp)
    simp only [loads, skipWs_encode, hparse, hskip, hne, if_false]
  · obtain ⟨m, d, hscan⟩ := encode_obj_cut h hx hy
    cases hl : loads (x ++ encode (.obj ms')) with
    | none => rfl
    | some v =>
      have hbal := loads_balanced hl
      rw [Balanced, scan_append, hscan, Option.bind_some] at hbal
      exact absurd hbal ((balanced_encode (.obj ms')).scan_open_ne m d)

end SpineFormal.Json
