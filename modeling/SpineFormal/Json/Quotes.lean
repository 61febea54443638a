import SpineFormal.Json.Scan
import SpineFormal.Json.Locality

/-!
# What stands inside and outside the string literals of a JSON text

Outside its literals a JSON text has only brackets, separators, blanks and the characters of
numbers and constants. A piece of a text that was cut inside a literal has the inside and
the outside exchanged, so what it can hold in a literal of its own is one of those.
-/

namespace SpineFormal.Json

set_option autoImplicit false

def quoteStep : Mode → Char → Mode
  | .outside, c => if c = '"' then .inside else .outside
  | .inside, c => if c = '"' then .outside else if c = '\\' then .escaped else .inside
  | .escaped, _ => .inside

/-- Where a text leads from a position. -/
def quoteRun (m : Mode) (s : List Char) : Mode := s.foldl quoteStep m

/-- The characters that are met outside a literal, opening quotes included. -/
def charsOutside : Mode → List Char → List Char
  | _, [] => []
  | .outside, c :: s => c :: charsOutside (quoteStep .outside c) s
  | .inside, c :: s => charsOutside (quoteStep .inside c) s
  | .escaped, c :: s => charsOutside (quoteStep .escaped c) s

/-- The characters that are met inside a literal, closing quotes included. -/
def charsInside : Mode → List Char → List Char
  | _, [] => []
  | .outside, c :: s => charsInside (quoteStep .outside c) s
  | .inside, c :: s => c :: charsInside (quoteStep .inside c) s
  | .escaped, c :: s => c :: charsInside (quoteStep .escaped c) s

theorem quoteRun_append (m : Mode) (s t : List Char) :
    quoteRun m (s ++ t) = quoteRun (quoteRun m s) t := by
  rw [quoteRun, List.foldl_append]
  rfl

theorem charsOutside_append (m : Mode) (s t : List Char) :
    charsOutside m (s ++ t) = charsOutside m s ++ charsOutside (quoteRun m s) t := by
  induction s generalizing m with
  | nil => cases m <;> rfl
  | cons c s ih =>
    cases m with
    | outside =>
      rw [List.cons_append, charsOutside, charsOutside, ih]
      rfl
    | inside | escaped => exact ih _

theorem charsInside_append (m : Mode) (s t : List Char) :
    charsInside m (s ++ t) = charsInside m s ++ charsInside (quoteRun m s) t := by
  induction s generalizing m with
  | nil => cases m <;> rfl
  | cons c s ih =>
    cases m with
    | outside => exact ih _
    | inside | escaped =>
      rw [List.cons_append, charsInside, charsInside, ih]
      rfl

/-! ## Exchanged positions -/

/-- One run is inside a literal where the other is outside. -/
def Exchanged : Mode → Mode → Prop
  | .outside, .inside => True
  | .inside, .outside => True
  | _, _ => False

theorem Exchanged.step {m n : Mode} (h : Exchanged m n) {c : Char} (hc : c ≠ '\\') :
    Exchanged (quoteStep m c) (quoteStep n c) := by
  cases m <;> cases n
  case outside.inside | inside.outside =>
    by_cases hquote : c = '"' <;> simp [quoteStep, hquote, hc, Exchanged]
  all_goals exact absurd h id

/-- Without a backslash outside, two exchanged runs of a text stay exchanged: neither meets a
backslash, and what the one meets inside the other meets outside. -/
theorem Exchanged.chars {m n : Mode} (h : Exchanged m n) {s : List Char}
    (hm : '\\' ∉ charsOutside m s) (hn : '\\' ∉ charsOutside n s) :
    '\\' ∉ s ∧ charsInside m s = charsOutside n s := by
  induction s generalizing m n with
  | nil => cases m <;> cases n <;> simp [charsInside, charsOutside]
  | cons c s ih =>
    cases m <;> cases n
    case outside.inside =>
      simp only [charsOutside] at hm hn
      obtain ⟨hc, hm⟩ := List.ne_and_not_mem_of_not_mem_cons hm
      have hstep := h.step (Ne.symm hc)
      obtain ⟨hs, heq⟩ := ih hstep hm hn
      exact ⟨List.not_mem_cons_of_ne_of_not_mem hc hs, heq⟩
    case inside.outside =>
      simp only [charsOutside] at hm hn
      obtain ⟨hc, hn⟩ := List.ne_and_not_mem_of_not_mem_cons hn
      have hstep := h.step (Ne.symm hc)
      obtain ⟨hs, heq⟩ := ih hstep hm hn
      refine ⟨List.not_mem_cons_of_ne_of_not_mem hc hs, ?_⟩
      rw [charsInside, charsOutside, heq]
    all_goals exact absurd h id

/-! ## The parser meets only tokens outside literals -/

def tokenChars : List Char := " \t\n\r\"\x7b\x7d[]:,+-.0123456789eEnultrfasNaIiy".toList

/-- `rest` is what remains of `s` after whole tokens and literals. -/
def Spans (s rest : List Char) : Prop :=
  ∃ c, s = c ++ rest ∧ quoteRun .outside c = .outside ∧ ∀ x ∈ charsOutside .outside c, x ∈ tokenChars

theorem Spans.refl (s : List Char) : Spans s s := ⟨[], rfl, rfl, List.forall_mem_nil _⟩

theorem Spans.trans {s t u : List Char} (hst : Spans s t) (htu : Spans t u) : Spans s u := by
  obtain ⟨c, rfl, hc, hcs⟩ := hst
  obtain ⟨d, rfl, hd, hds⟩ := htu
  refine ⟨c ++ d, by rw [List.append_assoc], ?_, ?_⟩
  · rw [quoteRun_append, hc, hd]
  · rw [charsOutside_append, hc]
    exact List.forall_mem_append.mpr ⟨hcs, hds⟩

/-- What is met inside literals after some tokens was met inside literals. -/
theorem Spans.inside_mem {s rest : List Char} (h : Spans s rest) {x : Char}
    (hx : x ∈ charsInside .outside rest) : x ∈ charsInside .outside s := by
  obtain ⟨c, rfl, hc, -⟩ := h
  rw [charsInside_append, hc]
  exact List.mem_append_right _ hx

theorem Spans.notMem {s rest : List Char} (h : Spans s rest) {x : Char} (hx : x ∉ s) : x ∉ rest := by
  obtain ⟨c, rfl, -⟩ := h
  exact fun hrest => hx (List.mem_append_right c hrest)

def Token (x : Char) : Prop := x ∈ tokenChars ∧ x ≠ '"'

instance (x : Char) : Decidable (Token x) := inferInstanceAs (Decidable (_ ∧ _))

theorem spans_cons {x : Char} (h : Token x) (s : List Char) : Spans (x :: s) s := by
  refine ⟨[x], rfl, if_neg h.2, ?_⟩
  exact List.forall_mem_singleton.mpr h.1

theorem token_of_isWs {c : Char} (h : isWs c = true) : Token c := by
  simp only [isWs, Bool.or_eq_true, beq_iff_eq] at h
  rcases h with ((rfl | rfl) | rfl) | rfl <;> decide

theorem token_of_isDigit {c : Char} (h : c.isDigit = true) : Token c := by
  have hdigits : ∀ n < 58, 48 ≤ n → Token (Char.ofNat n) := by decide
  simp only [Char.isDigit, Bool.and_eq_true, decide_eq_true_eq] at h
  have htoken := hdigits c.toNat (Nat.lt_succ_of_le h.2) h.1
  rwa [Char.ofNat_toNat] at htoken

/-! ## Literals -/

/-- The rest of a literal, from inside it to just after its closing quote. -/
def SpansLiteral (s rest : List Char) : Prop :=
  ∃ c, s = c ++ rest ∧ quoteRun .inside c = .outside ∧ charsOutside .inside c = []

theorem SpansLiteral.cons {s rest : List Char} {c : Char} (hq : c ≠ '"') (hb : c ≠ '\\')
    (h : SpansLiteral s rest) : SpansLiteral (c :: s) rest := by
  obtain ⟨t, rfl, ht, hts⟩ := h
  have hstep : quoteStep .inside c = .inside := (if_neg hq).trans (if_neg hb)
  refine ⟨c :: t, rfl, ?_, ?_⟩
  · rwa [quoteRun, List.foldl_cons, hstep]
  · rwa [charsOutside, hstep]

theorem SpansLiteral.escape {s rest : List Char} (e : Char) (h : SpansLiteral s rest) :
    SpansLiteral ('\\' :: e :: s) rest := by
  obtain ⟨t, rfl, ht, hts⟩ := h
  exact ⟨'\\' :: e :: t, rfl, ht, hts⟩

theorem hexVal_ne {c : Char} {n : Nat} (h : hexVal c = some n) : c ≠ '"' ∧ c ≠ '\\' := by
  obtain ⟨hq, hb⟩ := kindOf_hex h
  constructor
  · rintro rfl
    exact hq rfl
  · rintro rfl
    exact hb rfl

theorem SpansLiteral.hex4 {a b c d : Char} {u : Nat} {s rest : List Char}
    (h4 : hex4 a b c d = some u) (h : SpansLiteral s rest) :
    SpansLiteral (a :: b :: c :: d :: s) rest := by
  unfold Json.hex4 at h4
  split at h4
  · rename_i ha hb hc hd
    have hlast := h.cons (hexVal_ne hd).1 (hexVal_ne hd).2
    have hthird := hlast.cons (hexVal_ne hc).1 (hexVal_ne hc).2
    have hsecond := hthird.cons (hexVal_ne hb).1 (hexVal_ne hb).2
    exact hsecond.cons (hexVal_ne ha).1 (hexVal_ne ha).2
  · contradiction

theorem scanUnits_spans {s rest : List Char} {us : List Nat} (h : scanUnits s = some (us, rest)) :
    SpansLiteral s rest := by
  fun_induction scanUnits s generalizing us with
  | case1 | case3 | case5 | case7 => contradiction
  | case2 s =>
    obtain ⟨_, rfl⟩ := Prod.mk.inj (Option.some.inj h)
    exact ⟨['"'], rfl, rfl, rfl⟩
  | case4 a b c d s u hu ih =>
    obtain ⟨us', hs⟩ := scanUnits_map h
    exact (SpansLiteral.hex4 hu (ih hs)).escape 'u'
  | case6 e s _ c _ ih =>
    obtain ⟨us', hs⟩ := scanUnits_map h
    exact (ih hs).escape e
  | case8 c s hq _ _ hc ih =>
    obtain ⟨us', hs⟩ := scanUnits_map h
    exact (ih hs).cons hq fun hb => hc (Or.inl hb)

theorem scanString_spans {s cs rest : List Char} (h : scanString s = some (cs, rest)) :
    Spans ('"' :: s) rest := by
  obtain ⟨⟨us, r⟩, hs, heq⟩ := Option.map_eq_some_iff.mp h
  obtain ⟨_, rfl⟩ := Prod.mk.inj heq
  obtain ⟨c, rfl, hc, hcs⟩ := scanUnits_spans hs
  refine ⟨'"' :: c, rfl, hc, ?_⟩
  have houtside : charsOutside .outside ('"' :: c) = '"' :: charsOutside .inside c := rfl
  rw [houtside, hcs]
  exact List.forall_mem_singleton.mpr (by decide)

/-- A literal without escapes stands for its characters. -/
theorem scanUnits_chars {s rest : List Char} {us : List Nat} (h : scanUnits s = some (us, rest))
    (hs : '\\' ∉ s) : ∃ cs : List Char, us = cs.map Char.toNat ∧ ∀ x ∈ cs, x ∈ charsInside .inside s := by
  fun_induction scanUnits s generalizing us with
  | case1 | case3 | case5 | case7 => contradiction
  | case2 s =>
    obtain ⟨rfl, _⟩ := Prod.mk.inj (Option.some.inj h)
    exact ⟨[], rfl, List.forall_mem_nil _⟩
  | case4 a b c d s u hu ih => exact absurd List.mem_cons_self hs
  | case6 e s _ c _ ih => exact absurd List.mem_cons_self hs
  | case8 c s hq _ _ hc ih =>
    obtain ⟨⟨us', r⟩, hread, heq⟩ := Option.map_eq_some_iff.mp h
    obtain ⟨rfl, rfl⟩ := Prod.mk.inj heq
    obtain ⟨cs, rfl, hcs⟩ := ih hread (List.not_mem_of_not_mem_cons hs)
    have hstep : quoteStep .inside c = .inside := (if_neg hq).trans (if_neg fun hb => hc (.inl hb))
    refine ⟨c :: cs, rfl, ?_⟩
    rw [charsInside, hstep]
    exact List.forall_mem_cons.mpr ⟨List.mem_cons_self, fun x hx => List.mem_cons_of_mem c (hcs x hx)⟩

theorem joinSurrogates_chars (cs : List Char) : joinSurrogates (cs.map Char.toNat) = cs := by
  have hchr (c : Char) : chr c.toNat = c := by
    have hrange := char_range c
    rw [chr, if_neg (by omega), Char.ofNat_toNat]
  induction cs with
  | nil => rfl
  | cons c cs ih =>
    cases cs with
    | nil => rw [List.map_singleton, joinSurrogates, hchr]
    | cons d cs =>
      have hrange := char_range c
      rw [List.map_cons, List.map_cons, joinSurrogates, if_neg (by omega), hchr, ← List.map_cons, ih]

theorem scanString_chars {s cs rest : List Char} (h : scanString s = some (cs, rest))
    (hs : '\\' ∉ s) : ∀ x ∈ cs, x ∈ charsInside .outside ('"' :: s) := by
  obtain ⟨⟨us, r⟩, hread, heq⟩ := Option.map_eq_some_iff.mp h
  obtain ⟨rfl, _⟩ := Prod.mk.inj heq
  obtain ⟨ks, rfl, hks⟩ := scanUnits_chars hread hs
  rw [joinSurrogates_chars]
  exact hks

/-! ## Values -/

/-- What holds between a text and what is left of it holds along the whole parser when it
holds along a token and along a literal. -/
structure Traversal (R : List Char → List Char → Prop) : Prop where
  refl : ∀ s, R s s
  trans : ∀ {s t u}, R s t → R t u → R s u
  token : ∀ {x}, Token x → ∀ s, R (x :: s) s
  literal : ∀ {s cs rest}, scanString s = some (cs, rest) → R ('"' :: s) rest

theorem traversal_spans : Traversal Spans := ⟨Spans.refl, Spans.trans, spans_cons, scanString_spans⟩

section
variable {R : List Char → List Char → Prop}

theorem Traversal.tokens (hR : Traversal R) {c : List Char} (h : ∀ x ∈ c, Token x) (rest : List Char) :
    R (c ++ rest) rest := by
  induction c with
  | nil => exact hR.refl rest
  | cons x c ih =>
    obtain ⟨hx, hc⟩ := List.forall_mem_cons.mp h
    exact hR.trans (hR.token hx _) (ih hc)

theorem Traversal.skipWs (hR : Traversal R) (s : List Char) : R s (skipWs s) := by
  have h := hR.tokens (c := s.takeWhile isWs)
    (fun x hx => token_of_isWs (List.mem_takeWhile_imp hx)) (Json.skipWs s)
  simpa [Json.skipWs, List.takeWhile_append_dropWhile] using h

theorem Traversal.scalar (hR : Traversal R) {s rest : List Char} {v : Value}
    (h : scalar s = some (v, rest)) : R s rest := by
  have hletters : scalarLetters.all (fun c => Token c) = true := by decide
  obtain ⟨c, rfl, hc⟩ := scalar_passes (fun _ => token_of_isDigit)
    (List.all_iff_forall_prop.mp hletters) h
  exact hR.tokens hc rest

/-- After blanks and one separator or closing bracket. -/
theorem Traversal.separator (hR : Traversal R) {c : Char} (hc : Token c) {s r t : List Char}
    (h : R s r) (hws : Json.skipWs r = c :: t) : R s t := by
  have hblank := hR.skipWs r
  rw [hws] at hblank
  exact hR.trans h (hR.trans hblank (hR.token hc t))

/-- What the three mutually recursive readers keep, at one fuel level. -/
structure FuelTraverses (R : List Char → List Char → Prop) (fuel : Nat) : Prop where
  value : ∀ {s rest v}, parseValue fuel s = some (v, rest) → R s rest
  elems : ∀ {s rest vs}, parseElems fuel s = some (vs, rest) → R s rest
  members : ∀ {s rest ms}, parseMembers fuel s = some (ms, rest) → R s rest

theorem FuelTraverses.step_value (hR : Traversal R) {fuel : Nat} (ih : FuelTraverses R fuel)
    {s rest : List Char} {v : Value} (h : parseValue (fuel + 1) s = some (v, rest)) : R s rest := by
  cases s with
  | nil => simp [parseValue] at h
  | cons c s =>
    simp only [parseValue] at h
    split_ifs at h with hq ho ha
    · obtain ⟨⟨cs, r⟩, hs, heq⟩ := Option.map_eq_some_iff.mp h
      obtain ⟨_, rfl⟩ := Prod.mk.inj heq
      exact hq ▸ hR.literal hs
    · subst ho
      apply hR.trans (hR.token (by decide) s)
      split at h
      · rename_i t hws
        obtain ⟨_, rfl⟩ := Prod.mk.inj (Option.some.inj h)
        exact hR.separator (by decide) (hR.refl s) hws
      · obtain ⟨⟨ms, r⟩, hs, heq⟩ := Option.map_eq_some_iff.mp h
        obtain ⟨_, rfl⟩ := Prod.mk.inj heq
        exact hR.trans (hR.skipWs s) (ih.members hs)
    · subst ha
      apply hR.trans (hR.token (by decide) s)
      split at h
      · rename_i t hws
        obtain ⟨_, rfl⟩ := Prod.mk.inj (Option.some.inj h)
        exact hR.separator (by decide) (hR.refl s) hws
      · obtain ⟨⟨vs, r⟩, hs, heq⟩ := Option.map_eq_some_iff.mp h
        obtain ⟨_, rfl⟩ := Prod.mk.inj heq
        exact hR.trans (hR.skipWs s) (ih.elems hs)
    · exact hR.scalar h

theorem FuelTraverses.step_elems (hR : Traversal R) {fuel : Nat} (ih : FuelTraverses R fuel)
    {s rest : List Char} {vs : List Value} (h : parseElems (fuel + 1) s = some (vs, rest)) :
    R s rest := by
  simp only [parseElems] at h
  split at h
  · contradiction
  · rename_i v r hv
    split at h
    · rename_i t hws
      obtain ⟨⟨vs, r⟩, hs, heq⟩ := Option.map_eq_some_iff.mp h
      obtain ⟨_, rfl⟩ := Prod.mk.inj heq
      have hcomma := hR.separator (by decide) (ih.value hv) hws
      exact hR.trans (hR.trans hcomma (hR.skipWs t)) (ih.elems hs)
    · rename_i t hws
      obtain ⟨_, rfl⟩ := Prod.mk.inj (Option.some.inj h)
      exact hR.separator (by decide) (ih.value hv) hws
    · contradiction

/-- The first member, and the members after its comma. -/
theorem FuelTraverses.member (hR : Traversal R) {fuel : Nat} (ih : FuelTraverses R fuel)
    {s rest : List Char} {ms : Members} (h : parseMembers (fuel + 1) s = some (ms, rest)) :
    ∃ t k r v, s = '"' :: t ∧ scanString t = some (k, r) ∧
      ((∃ u ms', R s u ∧ parseMembers fuel u = some (ms', rest) ∧
          ms = (String.ofList k, v) :: ms') ∨
        R s rest ∧ ms = [(String.ofList k, v)]) := by
  cases s with
  | nil => simp [parseMembers] at h
  | cons q s =>
    simp only [parseMembers] at h
    split at h
    · rename_i hq
      subst hq
      split at h
      · contradiction
      · rename_i k r hk
        split at h
        · rename_i r' hcolon
          have hkey := hR.separator (c := ':') (by decide) (hR.literal hk) hcolon
          split at h
          · contradiction
          · rename_i v r'' hv
            have hvalue := hR.trans (hR.trans hkey (hR.skipWs r')) (ih.value hv)
            refine ⟨s, k, r, v, rfl, hk, ?_⟩
            split at h
            · rename_i t hws
              obtain ⟨⟨ms', u⟩, hs, heq⟩ := Option.map_eq_some_iff.mp h
              obtain ⟨rfl, rfl⟩ := Prod.mk.inj heq
              have hcomma := hR.separator (c := ',') (by decide) hvalue hws
              exact .inl ⟨Json.skipWs t, ms', hR.trans hcomma (hR.skipWs t), hs, rfl⟩
            · rename_i t hws
              obtain ⟨rfl, rfl⟩ := Prod.mk.inj (Option.some.inj h)
              exact .inr ⟨hR.separator (by decide) hvalue hws, rfl⟩
            · contradiction
        · contradiction
    · contradiction

theorem fuelTraverses (hR : Traversal R) (fuel : Nat) : FuelTraverses R fuel := by
  induction fuel with
  | zero => constructor <;> intro s rest v h <;> simp [parseValue, parseElems, parseMembers] at h
  | succ fuel ih =>
    refine ⟨ih.step_value hR, ih.step_elems hR, fun h => ?_⟩
    obtain ⟨-, -, -, -, -, -, ⟨u, ms', hspan, hms, -⟩ | ⟨hspan, -⟩⟩ := ih.member hR h
    · exact hR.trans hspan (ih.members hms)
    · exact hspan

/-- A document is traversed to its end. -/
theorem Traversal.loads (hR : Traversal R) {s : List Char} {v : Value} (h : loads s = some v) :
    R s [] := by
  unfold Json.loads at h
  split at h
  · rename_i w r hparse
    split at h
    · rename_i hend
      have htail := hR.skipWs r
      rw [hend] at htail
      exact hR.trans (hR.trans (hR.skipWs s) ((fuelTraverses hR _).value hparse)) htail
    · contradiction
  · contradiction

end

/-- Outside its literals a document has only tokens, and it ends outside. -/
theorem loads_tokens {s : List Char} {v : Value} (h : loads s = some v) :
    quoteRun .outside s = .outside ∧ ∀ x ∈ charsOutside .outside s, x ∈ tokenChars := by
  obtain ⟨c, hc, hspan⟩ := traversal_spans.loads h
  rw [List.append_nil] at hc
  exact hc ▸ hspan

/-! ## Control characters -/

/-- `rest` is what remains after whole tokens and literals without control characters. -/
def Clears (s rest : List Char) : Prop :=
  ∃ c, s = c ++ rest ∧ quoteRun .outside c = .outside ∧ ∀ x ∈ charsInside .outside c, 0x20 ≤ x.toNat

theorem Clears.trans {s t u : List Char} (hst : Clears s t) (htu : Clears t u) : Clears s u := by
  obtain ⟨c, rfl, hc, hcs⟩ := hst
  obtain ⟨d, rfl, hd, hds⟩ := htu
  refine ⟨c ++ d, by rw [List.append_assoc], ?_, ?_⟩
  · rw [quoteRun_append, hc, hd]
  · rw [charsInside_append, hc]
    exact List.forall_mem_append.mpr ⟨hcs, hds⟩

theorem charsInside_subset (m : Mode) (s : List Char) : ∀ x ∈ charsInside m s, x ∈ s := by
  induction s generalizing m with
  | nil => cases m <;> exact fun x hx => hx
  | cons c s ih =>
    intro x hx
    cases m with
    | outside => exact List.mem_cons_of_mem c (ih _ x hx)
    | inside | escaped =>
      rcases List.mem_cons.mp hx with rfl | hx
      · exact List.mem_cons_self
      · exact List.mem_cons_of_mem c (ih _ x hx)

theorem scanString_clears {s cs rest : List Char} (h : scanString s = some (cs, rest)) :
    Clears ('"' :: s) rest := by
  obtain ⟨c, hs, hle, -⟩ := scanString_local h
  obtain ⟨d, hd, hrun, -⟩ := scanString_spans h
  have heq : d = '"' :: c := List.append_cancel_right (hd.symm.trans (congrArg ('"' :: ·) hs))
  subst heq
  refine ⟨'"' :: c, hd, hrun, fun x hx => ?_⟩
  exact hle x (charsInside_subset .inside c x hx)

theorem traversal_clears : Traversal Clears where
  refl s := ⟨[], rfl, rfl, List.forall_mem_nil _⟩
  trans := Clears.trans
  token hx s := ⟨[_], rfl, if_neg hx.2, List.forall_mem_nil _⟩
  literal := scanString_clears

/-- A character that is no token has no control character before it, and does not come first. -/
theorem loads_foreign {s a b : List Char} {v : Value} (h : loads s = some v) {c : Char}
    (hc : c ∉ tokenChars) (hs : s = a ++ c :: b) : ∃ d x, a = d ++ [x] ∧ 0x20 ≤ x.toNat := by
  have houtside := (loads_tokens h).2
  obtain ⟨e, he, -, hinside⟩ := traversal_clears.loads h
  rw [List.append_nil] at he
  subst he hs
  rw [charsOutside_append] at houtside
  have hmode : quoteRun .outside a ≠ .outside := by
    intro hrun
    rw [hrun] at houtside
    exact hc (houtside c (List.mem_append_right _ List.mem_cons_self))
  rcases List.eq_nil_or_concat a with rfl | ⟨d, x, rfl⟩
  · exact absurd rfl hmode
  · rw [List.concat_eq_append] at hmode hinside ⊢
    refine ⟨d, x, rfl, ?_⟩
    rw [charsInside_append, charsInside_append] at hinside
    rw [quoteRun_append] at hmode
    cases hd : quoteRun .outside d with
    | outside =>
      rw [hd] at hmode
      have hx : x = '"' := by
        by_contra hne
        exact hmode (if_neg hne)
      rw [hx]
      decide
    | inside | escaped =>
      rw [hd] at hinside
      exact hinside x (List.mem_append_left _ (List.mem_append_right _ List.mem_cons_self))

/-! ## Keys -/

theorem parseMembers_keys {fuel : Nat} {s rest : List Char} {ms : Members}
    (h : parseMembers fuel s = some (ms, rest)) (hs : '\\' ∉ s) :
    ∀ m ∈ ms, ∀ x ∈ m.1.toList, x ∈ charsInside .outside s := by
  induction fuel generalizing s ms with
  | zero => simp [parseMembers] at h
  | succ fuel ih =>
    obtain ⟨t, k, r, v, rfl, hk, hrest⟩ := (fuelTraverses traversal_spans fuel).member traversal_spans h
    have hkey : ∀ x ∈ (String.ofList k).toList, x ∈ charsInside .outside ('"' :: t) := by
      rw [String.toList_ofList]
      exact scanString_chars hk (List.not_mem_of_not_mem_cons hs)
    rcases hrest with ⟨u, ms', hspan, hms, rfl⟩ | ⟨-, rfl⟩
    · intro m hm
      rcases List.mem_cons.mp hm with rfl | hm
      · exact hkey
      · intro x hx
        exact hspan.inside_mem (ih hms (hspan.notMem hs) m hm x hx)
    · exact List.forall_mem_singleton.mpr hkey

theorem parseValue_keys {fuel : Nat} {s rest : List Char} {ms : Members}
    (h : parseValue fuel s = some (.obj ms, rest)) (hs : '\\' ∉ s) :
    ∀ m ∈ ms, ∀ x ∈ m.1.toList, x ∈ charsInside .outside s := by
  cases fuel with
  | zero => simp [parseValue] at h
  | succ fuel =>
    cases s with
    | nil => simp [parseValue] at h
    | cons c s =>
      simp only [parseValue] at h
      split_ifs at h with hq ho ha
      · obtain ⟨p, -, heq⟩ := Option.map_eq_some_iff.mp h
        cases (Prod.mk.inj heq).1
      · subst ho
        split at h
        · obtain ⟨heq, -⟩ := Prod.mk.inj (Option.some.inj h)
          obtain rfl := Value.obj.inj heq
          exact List.forall_mem_nil _
        · obtain ⟨⟨ms', r⟩, hread, heq⟩ := Option.map_eq_some_iff.mp h
          obtain rfl := Value.obj.inj (Prod.mk.inj heq).1
          have hspan : Spans ('{' :: s) (skipWs s) :=
            (spans_cons (by decide) s).trans (traversal_spans.skipWs s)
          intro m hm x hx
          exact hspan.inside_mem (parseMembers_keys hread (hspan.notMem hs) m hm x hx)
      · split at h
        · cases (Prod.mk.inj (Option.some.inj h)).1
        · obtain ⟨p, -, heq⟩ := Option.map_eq_some_iff.mp h
          cases (Prod.mk.inj heq).1
      · exact absurd rfl (scalar_ne_obj h ms)

/-- Without escapes, the keys of an object consist of characters inside literals. -/
theorem loads_keys {s : List Char} {ms : Members} (h : loads s = some (.obj ms))
    (hs : '\\' ∉ s) : ∀ m ∈ ms, ∀ x ∈ m.1.toList, x ∈ charsInside .outside s := by
  unfold loads at h
  split at h
  · rename_i w r hparse
    split at h
    · obtain rfl := Option.some.inj h
      have hblank := traversal_spans.skipWs s
      intro m hm x hx
      exact hblank.inside_mem (parseValue_keys hparse (hblank.notMem hs) m hm x hx)
    · contradiction
  · contradiction

end SpineFormal.Json
