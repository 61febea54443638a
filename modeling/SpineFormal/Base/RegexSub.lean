import SpineFormal.Base.Regex

/-!
# Patterns that look around, and what they cut out of a text

A pattern may ask something of the characters before and after what it takes. Its matches
in a text, from left to right and none inside another, leave pieces of the text standing,
and a substitution puts one filler between the pieces.
-/

namespace SpineFormal.Re

set_option autoImplicit false

/-- What an assertion asks of the characters on its two sides. -/
inductive Look where
  | free
  | boundary (word : Char → Bool)
  | notBehind (p : Char → Bool)
  | notAhead (p : Char → Bool)

def Look.holds : Look → Option Char → Option Char → Bool
  | free, _, _ => true
  | boundary word, x, y => x.any word != y.any word
  | notBehind p, x, _ => !x.any p
  | notAhead p, _, y => !y.any p

/-- A pattern between two assertions. It takes at least one character. -/
structure Pattern where
  opening : Look
  core : Regex
  closing : Look
  takes : 0 < core.width

/-- The last character before a place, after one more text. -/
def lastOr (prev : Option Char) (w : List Char) : Option Char := w.getLast?.or prev

@[simp] theorem lastOr_nil (prev : Option Char) : lastOr prev [] = prev := rfl

@[simp] theorem lastOr_singleton (prev : Option Char) (c : Char) : lastOr prev [c] = some c := rfl

@[simp] theorem lastOr_append (prev : Option Char) (v w : List Char) :
    lastOr prev (v ++ w) = lastOr (lastOr prev v) w := by
  rw [lastOr, List.getLast?_append, Option.or_assoc]
  rfl

theorem lastOr_of_ne_nil {w : List Char} (hw : w ≠ []) (p q : Option Char) :
    lastOr p w = lastOr q w := by
  rw [lastOr, lastOr, List.getLast?_eq_some_getLast hw]
  rfl

namespace Pattern

variable {e : Pattern}

/-- The pattern matches `w` between `prev` and `t`. -/
structure At (e : Pattern) (prev : Option Char) (w t : List Char) : Prop where
  opens : e.opening.holds prev (w ++ t).head? = true
  spells : Spells e.core w
  closes : e.closing.holds (lastOr prev w) t.head? = true

theorem ne_nil_of_spells {w : List Char} (h : Spells e.core w) : w ≠ [] := by
  have hlen := width_le h
  have htakes := e.takes
  apply List.length_pos_iff.mp
  omega

/-- The first match that starts at a place. -/
def matchAt (e : Pattern) (prev : Option Char) (s : List Char) : Option (List Char × List Char) :=
  if e.opening.holds prev s.head? then
    (e.core.splits s).find? fun p => e.closing.holds (lastOr prev p.1) p.2.head?
  else none

theorem at_of_matchAt {prev : Option Char} {s w t : List Char} (h : e.matchAt prev s = some (w, t)) :
    s = w ++ t ∧ e.At prev w t := by
  rw [matchAt] at h
  split at h
  · rename_i hopen
    obtain ⟨rfl, hspells⟩ := mem_splits.mp (List.mem_of_find?_eq_some h)
    exact ⟨rfl, hopen, hspells, by simpa using List.find?_some h⟩
  · cases h

theorem not_at_of_matchAt {prev : Option Char} {w t : List Char}
    (h : e.matchAt prev (w ++ t) = none) : ¬ e.At prev w t := by
  intro hat
  rw [matchAt, if_pos hat.opens, List.find?_eq_none] at h
  exact h (w, t) (mem_splits.mpr ⟨rfl, hat.spells⟩) hat.closes

/-- `re.search` finds a match. -/
def Found (e : Pattern) (s : List Char) : Prop :=
  ∃ a w b, s = a ++ (w ++ b) ∧ e.At (lastOr none a) w b

end Pattern

/-! ## Pieces -/

def consHead (c : Char) : List (List Char) → List (List Char)
  | [] => [[c]]
  | g :: gs => (c :: g) :: gs

/-- What the matches leave standing. -/
def piecesFrom (e : Pattern) : Nat → Option Char → List Char → List (List Char)
  | 0, _, s => [s]
  | fuel + 1, prev, s =>
    match e.matchAt prev s with
    | some (w, t) => [] :: piecesFrom e fuel (lastOr prev w) t
    | none =>
      match s with
      | [] => [[]]
      | c :: s => consHead c (piecesFrom e fuel (some c) s)

def pieces (e : Pattern) (s : List Char) : List (List Char) := piecesFrom e s.length none s

/-- `subn`: the text with every match replaced, and how many there were. -/
def subn (e : Pattern) (filler s : List Char) : List Char × Nat :=
  (filler.intercalate (pieces e s), (pieces e s).length - 1)

/-- `Cuts e prev s gs`: after `prev`, the matches of `e` in `s` leave the pieces `gs`. -/
inductive Cuts (e : Pattern) : Option Char → List Char → List (List Char) → Prop where
  | done {prev : Option Char} : Cuts e prev [] [[]]
  | keep {prev : Option Char} {c : Char} {s g : List Char} {gs : List (List Char)} :
      e.matchAt prev (c :: s) = none → Cuts e (some c) s (g :: gs) →
      Cuts e prev (c :: s) ((c :: g) :: gs)
  | cut {prev : Option Char} {w t : List Char} {gs : List (List Char)} :
      e.At prev w t → Cuts e (lastOr prev w) t gs → Cuts e prev (w ++ t) ([] :: gs)

section Cuts

variable {e : Pattern} {prev : Option Char} {s : List Char} {gs : List (List Char)}

theorem Cuts.ne_nil (h : Cuts e prev s gs) : gs ≠ [] := by
  cases h <;> exact List.cons_ne_nil _ _

theorem piecesFrom_of_match {fuel : Nat} {w t : List Char} (h : e.matchAt prev s = some (w, t)) :
    piecesFrom e (fuel + 1) prev s = [] :: piecesFrom e fuel (lastOr prev w) t := by
  cases s <;> rw [piecesFrom, h]

theorem cuts_piecesFrom {fuel : Nat} (hfuel : s.length ≤ fuel) :
    Cuts e prev s (piecesFrom e fuel prev s) := by
  induction fuel generalizing prev s with
  | zero =>
    obtain rfl := List.length_eq_zero_iff.mp (by omega : s.length = 0)
    exact .done
  | succ fuel ih =>
    cases hmatch : e.matchAt prev s with
    | some p =>
      obtain ⟨w, t⟩ := p
      rw [piecesFrom_of_match hmatch]
      obtain ⟨rfl, hat⟩ := Pattern.at_of_matchAt hmatch
      have hpos := List.length_pos_iff.mpr (Pattern.ne_nil_of_spells hat.spells)
      rw [List.length_append] at hfuel
      exact .cut hat (ih (by omega))
    | none =>
      cases s with
      | nil =>
        rw [piecesFrom, hmatch]
        exact .done
      | cons c s =>
        rw [List.length_cons] at hfuel
        have hrest : Cuts e (some c) s (piecesFrom e fuel (some c) s) := ih (by omega)
        obtain ⟨g, gs, heq⟩ := List.exists_cons_of_ne_nil hrest.ne_nil
        rw [heq] at hrest
        rw [piecesFrom, hmatch]
        dsimp only
        rw [heq]
        exact .keep hmatch hrest

theorem cuts_pieces (e : Pattern) (s : List Char) : Cuts e none s (pieces e s) :=
  cuts_piecesFrom (Nat.le_refl _)

/-- Inside a piece the text and the piece go on together. -/
theorem Cuts.inside {u g : List Char} (h : Cuts e prev s ((u ++ g) :: gs)) :
    ∃ t, s = u ++ t ∧ Cuts e (lastOr prev u) t (g :: gs) := by
  induction u generalizing prev s with
  | nil => exact ⟨s, rfl, h⟩
  | cons c u ih =>
    cases h with
    | keep _ hrest =>
      obtain ⟨t, rfl, ht⟩ := ih hrest
      refine ⟨t, rfl, ?_⟩
      rw [← List.singleton_append, lastOr_append, lastOr_singleton]
      exact ht

theorem Cuts.opened (h : Cuts e prev s ([] :: gs)) (hgs : gs ≠ []) :
    ∃ w t, s = w ++ t ∧ e.At prev w t ∧ Cuts e (lastOr prev w) t gs := by
  cases h with
  | done => exact absurd rfl hgs
  | cut hat hrest => exact ⟨_, _, rfl, hat, hrest⟩

/-- A later piece starts where a match ends. -/
theorem Cuts.later {gs₁ gs₂ : List (List Char)} (h : Cuts e prev s (gs₁ ++ gs₂))
    (hgs₁ : gs₁ ≠ []) (hgs₂ : gs₂ ≠ []) : ∃ a q w t, s = a ++ t ∧ Cuts e (lastOr prev a) t gs₂ ∧
      e.At q w t ∧ lastOr prev a = lastOr q w := by
  induction gs₁ generalizing prev s with
  | nil => exact absurd rfl hgs₁
  | cons g gs₁ ih =>
    rw [List.cons_append, ← List.append_nil g] at h
    obtain ⟨r, rfl, hr⟩ := h.inside
    have hne : gs₁ ++ gs₂ ≠ [] := fun h => hgs₂ (List.append_eq_nil_iff.mp h).2
    obtain ⟨w, t, rfl, hat, hrest⟩ := hr.opened hne
    by_cases hnil : gs₁ = []
    · subst hnil
      refine ⟨g ++ w, lastOr prev g, w, t, (List.append_assoc _ _ _).symm, ?_, hat, ?_⟩
      · rw [lastOr_append]
        exact hrest
      · exact lastOr_append _ _ _
    · obtain ⟨a, q, v, t', rfl, hcuts, hat', heq⟩ := ih hrest hnil
      refine ⟨g ++ w ++ a, q, v, t', by simp only [List.append_assoc], ?_, hat', ?_⟩
      · rw [lastOr_append, lastOr_append]
        exact hcuts
      · rw [lastOr_append, lastOr_append]
        exact heq

theorem Cuts.reach {gs₁ gs₂ : List (List Char)} (h : Cuts e prev s (gs₁ ++ gs₂))
    (hgs₂ : gs₂ ≠ []) : ∃ a t, s = a ++ t ∧ Cuts e (lastOr prev a) t gs₂ := by
  by_cases hgs₁ : gs₁ = []
  · subst hgs₁
    exact ⟨[], s, rfl, h⟩
  · obtain ⟨a, q, w, t, hs, hcuts, -⟩ := h.later hgs₁ hgs₂
    exact ⟨a, t, hs, hcuts⟩

end Cuts

/-! ## Fillers -/

/-- The text that is put between pieces: something between two marks. -/
structure Filler where
  first : Char
  mid : List Char
  last : Char

def Filler.text (f : Filler) : List Char := f.first :: (f.mid ++ [f.last])

def Filler.join (f : Filler) (gs : List (List Char)) : List Char := f.text.intercalate gs

section Join

variable {f : Filler} {gs gs₁ gs₂ : List (List Char)}

theorem join_cons (hgs : gs ≠ []) (g : List Char) :
    f.join (g :: gs) = g ++ (f.text ++ f.join gs) := by
  rw [Filler.join, List.intercalate_cons_of_ne_nil hgs, List.append_assoc]
  rfl

theorem join_singleton (g : List Char) : f.join [g] = g := List.intercalate_singleton

/-- A joined text breaks in two wherever one of its pieces does. -/
theorem join_break (u v : List Char) :
    f.join (gs₁ ++ (u ++ v) :: gs₂) = f.join (gs₁ ++ [u]) ++ f.join (v :: gs₂) := by
  induction gs₁ with
  | nil =>
    rw [List.nil_append, List.nil_append, join_singleton]
    by_cases h : gs₂ = []
    · subst h
      rw [join_singleton, join_singleton]
    · rw [join_cons h, join_cons h, List.append_assoc]
  | cons g gs₁ ih =>
    rw [List.cons_append, List.cons_append, join_cons (by simp), join_cons (by simp), ih]
    simp only [List.append_assoc]

theorem join_append_cons (w v : List Char) : f.join ((w ++ v) :: gs) = w ++ f.join (v :: gs) := by
  have h : f.join ([] ++ (w ++ v) :: gs) = f.join ([] ++ [w]) ++ f.join (v :: gs) :=
    join_break w v
  rwa [List.nil_append, List.nil_append, join_singleton] at h

theorem join_concat (hgs : gs ≠ []) (u : List Char) :
    f.join (gs ++ [u]) = f.join gs ++ (f.text ++ u) := by
  induction gs with
  | nil => exact absurd rfl hgs
  | cons g gs ih =>
    rw [List.cons_append, join_cons (by simp)]
    by_cases h : gs = []
    · subst h
      rw [List.nil_append, join_singleton, join_singleton]
    · rw [ih h, join_cons h]
      simp only [List.append_assoc]

/-- Before the rest of a piece stands what the piece has there, or a mark. -/
theorem lastOr_join (u : List Char) : lastOr none (f.join (gs ++ [u])) = lastOr none u ∨
    u = [] ∧ gs ≠ [] ∧ lastOr none (f.join (gs ++ [u])) = some f.last := by
  by_cases hgs : gs = []
  · subst hgs
    rw [List.nil_append, join_singleton]
    exact .inl rfl
  · rw [join_concat hgs, lastOr_append, lastOr_append]
    by_cases hu : u = []
    · subst hu
      rw [lastOr_nil, Filler.text, ← List.cons_append, lastOr_append]
      exact .inr ⟨rfl, hgs, rfl⟩
    · exact .inl (lastOr_of_ne_nil hu _ _)

/-- After the start of a piece stands what the piece has there, or a mark. -/
theorem head?_join (v : List Char) : (f.join (v :: gs)).head? = v.head? ∨
    v = [] ∧ gs ≠ [] ∧ (f.join (v :: gs)).head? = some f.first := by
  by_cases hgs : gs = []
  · subst hgs
    rw [join_singleton]
    exact .inl rfl
  · rw [join_cons hgs]
    cases v with
    | nil => exact .inr ⟨rfl, hgs, rfl⟩
    | cons c v => exact .inl rfl

/-- A word without a certain character stands on one side of it. -/
theorem side_of_notMem {x : Char} {l r a w b : List Char} (hx : x ∉ w)
    (h : l ++ x :: r = a ++ (w ++ b)) : (∃ v, l = a ++ (w ++ v) ∧ b = v ++ x :: r) ∨
    ∃ u, a = l ++ x :: u ∧ r = u ++ (w ++ b) := by
  rw [← List.append_assoc, List.append_eq_append_iff] at h
  obtain ⟨y, haw, hxr⟩ | ⟨v, rfl, hb⟩ := h
  · cases y with
    | nil =>
      rw [List.append_nil] at haw
      exact .inl ⟨[], by rw [List.append_nil, haw], hxr.symm⟩
    | cons z y =>
      obtain ⟨rfl, rfl⟩ := List.cons.inj hxr
      rw [List.append_eq_append_iff] at haw
      obtain ⟨k, hl, hw⟩ | ⟨k, ha, hk⟩ := haw
      · exact absurd (hw ▸ List.mem_append_right k List.mem_cons_self) hx
      · cases k with
        | nil => exact absurd (by rw [← List.nil_append w, ← hk]; exact List.mem_cons_self) hx
        | cons z k =>
          obtain ⟨rfl, rfl⟩ := List.cons.inj hk
          exact .inr ⟨k, ha, List.append_assoc _ _ _⟩
  · exact .inl ⟨v, List.append_assoc _ _ _, hb⟩

/-- A word that has neither mark and is not part of the filler lies in one piece. -/
theorem piece_of_join {a w b : List Char} (hfirst : f.first ∉ w) (hlast : f.last ∉ w)
    (hmid : ¬ w <:+: f.mid) (h : f.join gs = a ++ (w ++ b)) : ∃ gs₁ u v gs₂,
      gs = gs₁ ++ (u ++ (w ++ v)) :: gs₂ ∧ a = f.join (gs₁ ++ [u]) ∧ b = f.join (v :: gs₂) := by
  induction gs generalizing a with
  | nil =>
    have hw : w = [] := (List.append_eq_nil_iff.mp (List.append_eq_nil_iff.mp h.symm).2).1
    exact absurd (hw ▸ List.nil_infix) hmid
  | cons g gs ih =>
    by_cases hgs : gs = []
    · subst hgs
      rw [join_singleton] at h
      exact ⟨[], a, b, [], by rw [h]; rfl, (join_singleton a).symm, (join_singleton b).symm⟩
    · rw [join_cons hgs, Filler.text, List.cons_append] at h
      obtain ⟨v, rfl, rfl⟩ | ⟨u, rfl, hright⟩ := side_of_notMem hfirst h
      · refine ⟨[], a, v, gs, rfl, (join_singleton a).symm, ?_⟩
        rw [join_cons hgs, Filler.text]
        rfl
      · rw [List.append_assoc, List.singleton_append] at hright
        obtain ⟨v, hv, -⟩ | ⟨u', rfl, hrest⟩ := side_of_notMem hlast hright
        · exact absurd ⟨u, v, by rw [hv, List.append_assoc]⟩ hmid
        · obtain ⟨gs₁, k, v, gs₂, rfl, hk, hb⟩ := ih hrest
          refine ⟨g :: gs₁, k, v, gs₂, rfl, ?_, hb⟩
          rw [List.cons_append, join_cons (by simp), ← hk, Filler.text]
          simp only [List.append_assoc, List.cons_append, List.nil_append]

end Join

/-! ## What a substitution brings about -/

/-- No word of the pattern can touch a filler. -/
structure Regex.Foreign (f : Filler) (r : Regex) : Prop where
  first : r.avoids f.first = true
  last : r.avoids f.last = true
  mid : ∀ w, Spells r w → ¬ w <:+: f.mid

/-- A mark beside a match is as good as the end of the text. -/
structure Pattern.Blind (f : Filler) (e : Pattern) : Prop where
  opens : ∀ y, e.opening.holds (some f.last) y = e.opening.holds none y
  closes : ∀ x, e.closing.holds x (some f.first) = e.closing.holds x none

/-- Where one match of the pattern stops or starts, another one may start or stop. -/
structure Pattern.Abuts (e : Pattern) : Prop where
  opens : ∀ x c w, Spells e.core (c :: w) → e.closing.holds x (some c) = true →
    e.opening.holds x (some c) = true
  closes : ∀ x y w, Spells e.core (w ++ [x]) → e.opening.holds (some x) y = true →
    e.closing.holds (some x) y = true

section Sub

variable {f : Filler} {e l : Pattern} {s : List Char} {gs : List (List Char)}

theorem piece_of_found (he : e.core.Foreign f) {a w b : List Char} (hw : Spells e.core w)
    (h : f.join gs = a ++ (w ++ b)) : ∃ gs₁ u v gs₂,
      gs = gs₁ ++ (u ++ (w ++ v)) :: gs₂ ∧ a = f.join (gs₁ ++ [u]) ∧ b = f.join (v :: gs₂) :=
  piece_of_join (notMem_of_avoids hw he.first) (notMem_of_avoids hw he.last) (he.mid w hw) h

theorem head?_append_of_ne_nil {w : List Char} (hw : w ≠ []) (s t : List Char) :
    (w ++ s).head? = (w ++ t).head? := by
  obtain ⟨c, w, rfl⟩ := List.exists_cons_of_ne_nil hw
  rfl

/-- A match in the joined text is one in a piece that stands by itself, and conversely. -/
theorem found_join_iff (he : e.core.Foreign f) (hblind : e.Blind f) :
    e.Found (f.join gs) ↔ ∃ g ∈ gs, e.Found g := by
  constructor
  · intro h
    obtain ⟨a, w, b, hs, hat⟩ := h
    obtain ⟨gs₁, u, v, gs₂, rfl, rfl, rfl⟩ := piece_of_found he hat.spells hs
    have hw := Pattern.ne_nil_of_spells hat.spells
    refine ⟨_, List.mem_append_right _ List.mem_cons_self, u, w, v, rfl, ?_, hat.spells, ?_⟩
    · have hopen := hat.opens
      rw [head?_append_of_ne_nil hw _ v] at hopen
      obtain h | ⟨rfl, -, h⟩ := lastOr_join u
      · rw [← h]
        exact hopen
      · rw [h, hblind.opens] at hopen
        exact hopen
    · have hclose := hat.closes
      rw [lastOr_of_ne_nil hw _ (lastOr none u)] at hclose
      obtain h | ⟨rfl, -, h⟩ := head?_join v
      · rw [← h]
        exact hclose
      · rw [h, hblind.closes] at hclose
        exact hclose
  · intro h
    obtain ⟨g, hg, u, w, v, rfl, hat⟩ := h
    obtain ⟨gs₁, gs₂, rfl⟩ := List.append_of_mem hg
    have hw := Pattern.ne_nil_of_spells hat.spells
    refine ⟨f.join (gs₁ ++ [u]), w, f.join (v :: gs₂), ?_, ?_, hat.spells, ?_⟩
    · rw [join_break, join_append_cons]
    · have hopen := hat.opens
      rw [head?_append_of_ne_nil hw _ (f.join (v :: gs₂))] at hopen
      obtain h | ⟨rfl, -, h⟩ := lastOr_join u
      · rw [h]
        exact hopen
      · rw [h, hblind.opens]
        exact hopen
    · have hclose := hat.closes
      rw [lastOr_of_ne_nil hw _ (lastOr none (f.join (gs₁ ++ [u])))] at hclose
      obtain h | ⟨rfl, -, h⟩ := head?_join v
      · rw [h]
        exact hclose
      · rw [h, hblind.closes]
        exact hclose

theorem Cuts.kept {prev : Option Char} {t w v : List Char} (hw : w ≠ [])
    (h : Cuts l prev t ((w ++ v) :: gs)) : l.matchAt prev t = none := by
  obtain ⟨c, w, rfl⟩ := List.exists_cons_of_ne_nil hw
  cases h with
  | keep hmatch _ => exact hmatch

/-- Where a piece goes on in the text, the character before is the one before it in the joined
text, or the last one of a match. -/
theorem Cuts.place {gs₁ gs₂ : List (List Char)} {u g : List Char}
    (h : Cuts l none s (gs₁ ++ (u ++ g) :: gs₂)) : ∃ a t, s = a ++ t ∧
      Cuts l (lastOr none a) t (g :: gs₂) ∧
      (lastOr none a = lastOr none (f.join (gs₁ ++ [u])) ∨
        ∃ q v, l.At q v t ∧ lastOr none a = lastOr q v) := by
  by_cases hgs₁ : gs₁ = []
  · subst hgs₁
    obtain ⟨t, rfl, ht⟩ := Cuts.inside h
    refine ⟨u, t, rfl, ht, .inl ?_⟩
    rw [List.nil_append, join_singleton]
  · obtain ⟨a, q, v, t, rfl, hcuts, hat, heq⟩ := h.later hgs₁ (List.cons_ne_nil _ _)
    by_cases hu : u = []
    · subst hu
      exact ⟨a, t, rfl, hcuts, .inr ⟨q, v, hat, heq⟩⟩
    · obtain ⟨t, rfl, ht⟩ := hcuts.inside
      refine ⟨a ++ u, t, (List.append_assoc _ _ _).symm, ?_, .inl ?_⟩
      · rw [lastOr_append]
        exact ht
      · rw [join_concat hgs₁, lastOr_append, lastOr_append, lastOr_append]
        exact lastOr_of_ne_nil hu _ _

/-- What follows in the text is what follows in the joined text, or a match. -/
theorem Cuts.ahead {prev : Option Char} {t v : List Char} (h : Cuts l prev t (v :: gs)) :
    t.head? = (f.join (v :: gs)).head? ∨ ∃ w r, t = w ++ r ∧ l.At prev w r := by
  cases h with
  | done =>
    rw [join_singleton]
    exact .inl rfl
  | keep _ _ =>
    rename_i c s g _ _
    rw [← List.singleton_append (l := g), join_append_cons]
    exact .inl rfl
  | cut hat _ => exact .inr ⟨_, _, rfl, hat⟩

/-- A match of `e` in a text at a place where `l` has none. -/
def Kept (l e : Pattern) (s : List Char) : Prop :=
  ∃ a w t, s = a ++ (w ++ t) ∧ e.At (lastOr none a) w t ∧ l.matchAt (lastOr none a) (w ++ t) = none

theorem Kept.found (h : Kept l e s) : e.Found s := by
  obtain ⟨a, w, t, hs, hat, -⟩ := h
  exact ⟨a, w, t, hs, hat⟩

theorem not_kept_self : ¬ Kept e e s := by
  intro h
  obtain ⟨a, w, t, -, hat, hnone⟩ := h
  exact Pattern.not_at_of_matchAt hnone hat

theorem kept_of_found (he : e.core.Foreign f)
    (hopen : ∀ q v w t, l.At q v (w ++ t) → Spells e.core w →
      e.opening.holds (lastOr q v) (w ++ t).head? = true)
    (hclose : ∀ p w v t, Spells e.core w → l.At (lastOr p w) v t →
      e.closing.holds (lastOr p w) (v ++ t).head? = true)
    (hcuts : Cuts l none s gs) (hfound : e.Found (f.join gs)) : Kept l e s := by
  obtain ⟨a, w, b, hs, hat⟩ := hfound
  obtain ⟨gs₁, u, v, gs₂, rfl, rfl, rfl⟩ := piece_of_found he hat.spells hs
  have hw := Pattern.ne_nil_of_spells hat.spells
  obtain ⟨a, t, rfl, hplace, hbefore⟩ := hcuts.place (f := f)
  have hkept := hplace.kept hw
  obtain ⟨t, rfl, hrest⟩ := hplace.inside
  refine ⟨a, w, t, rfl, ⟨?_, hat.spells, ?_⟩, hkept⟩
  · obtain h | ⟨q, v', hmatch, h⟩ := hbefore
    · rw [h, head?_append_of_ne_nil hw t (f.join (v :: gs₂))]
      exact hat.opens
    · rw [h]
      exact hopen q v' w t hmatch hat.spells
  · obtain h | ⟨v', r, rfl, hmatch⟩ := hrest.ahead (f := f)
    · rw [h, lastOr_of_ne_nil hw _ (lastOr none (f.join (gs₁ ++ [u])))]
      exact hat.closes
    · exact hclose _ w v' r hat.spells hmatch

/-- A pattern that abuts itself has no match in what its own matches leave. -/
theorem not_found_join_self (he : e.core.Foreign f) (habuts : e.Abuts) (hcuts : Cuts e none s gs) :
    ¬ e.Found (f.join gs) := by
  intro hfound
  refine not_kept_self (kept_of_found he ?_ ?_ hcuts hfound)
  · intro q v w t hat hw
    obtain ⟨c, w, rfl⟩ := List.exists_cons_of_ne_nil (Pattern.ne_nil_of_spells hw)
    exact habuts.opens _ c w hw hat.closes
  · intro p w v t hw hat
    obtain ⟨w, x, rfl⟩ := (List.eq_nil_or_concat' w).resolve_left (Pattern.ne_nil_of_spells hw)
    have hopens := hat.opens
    rw [lastOr_append, lastOr_singleton] at hopens ⊢
    exact habuts.closes x _ w hw hopens

/-- Whatever the cuts, a match in what they leave was a match in the text. -/
def Pattern.Contained (f : Filler) (e : Pattern) : Prop :=
  ∀ l s gs, Cuts l none s gs → e.Found (f.join gs) → Kept l e s

theorem contained_of_free (he : e.core.Foreign f) (hopening : e.opening = .free)
    (hclosing : e.closing = .free) : e.Contained f := by
  intro l s gs hcuts hfound
  refine kept_of_found he ?_ ?_ hcuts hfound
  · intro _ _ _ _ _ _
    rw [hopening]
    rfl
  · intro _ _ _ _ _ _
    rw [hclosing]
    rfl

/-- A pattern that has any text between a head and a foot may run over several pieces, but its
head and its foot stand in the text in the same order. -/
theorem contained_of_span {head foot : Regex} (hhead : head.Foreign f) (hfoot : foot.Foreign f)
    (hcore : e.core = .seq head (.seq anyText foot)) (hopening : e.opening = .free)
    (hclosing : e.closing = .free) : e.Contained f := by
  intro l s gs hcuts hfound
  obtain ⟨a, w, b, hs, hat⟩ := hfound
  have hspells := hat.spells
  rw [hcore] at hspells
  cases hspells with
  | seq hh hrest =>
    rename_i x w
    cases hrest with
    | seq hany hf =>
      rename_i m y
      have hx : x ≠ [] := fun h => hhead.mid x hh (h ▸ List.nil_infix)
      rw [List.append_assoc] at hs
      obtain ⟨gs₁, u, v, gs₂, rfl, -, hb⟩ := piece_of_join (notMem_of_avoids hh hhead.first)
        (notMem_of_avoids hh hhead.last) (hhead.mid x hh) hs
      obtain ⟨a, t, rfl, hplace, -⟩ := hcuts.place (f := f)
      have hkept := hplace.kept hx
      obtain ⟨t, rfl, htail⟩ := hplace.inside
      rw [List.append_assoc] at hb
      obtain ⟨gs₃, u', v', gs₄, hgs, -, -⟩ := piece_of_join (notMem_of_avoids hf hfoot.first)
        (notMem_of_avoids hf hfoot.last) (hfoot.mid y hf) hb.symm
      rw [hgs] at htail
      obtain ⟨m₁, t, rfl, hreach⟩ := htail.reach (List.cons_ne_nil _ _)
      obtain ⟨t, rfl, hfoots⟩ := hreach.inside
      obtain ⟨t, rfl, -⟩ := hfoots.inside
      have hword : Spells e.core (x ++ (m₁ ++ u' ++ y)) := by
        rw [hcore]
        exact .seq hh (.seq (spells_anyText _) hf)
      refine ⟨a, x ++ (m₁ ++ u' ++ y), t, ?_, ⟨?_, hword, ?_⟩, ?_⟩
      · simp only [List.append_assoc]
      · rw [hopening]
        rfl
      · rw [hclosing]
        rfl
      · simpa only [List.append_assoc] using hkept

theorem Pattern.Contained.not_found_join_self (he : e.Contained f) (hcuts : Cuts e none s gs) :
    ¬ e.Found (f.join gs) :=
  fun hfound => not_kept_self (he e s gs hcuts hfound)

theorem Cuts.eq_of_singleton {prev : Option Char} {g : List Char} (h : Cuts e prev s [g]) :
    g = s := by
  rw [← List.append_nil g] at h
  obtain ⟨t, rfl, ht⟩ := h.inside
  cases ht with
  | done => exact (List.append_nil g).symm
  | cut _ hrest => exact absurd rfl hrest.ne_nil

/-- A text without a match is one piece. -/
theorem Cuts.eq_singleton {prev : Option Char} (h : Cuts e prev s gs)
    (hnone : ∀ a w b, s = a ++ (w ++ b) → ¬ e.At (lastOr prev a) w b) : gs = [s] := by
  induction h with
  | done => rfl
  | keep _ _ ih =>
    rename_i p c s g gs _ _
    have hrest : g :: gs = [s] := by
      apply ih
      intro a w b hs hat
      refine hnone (c :: a) w b (by rw [hs]; rfl) ?_
      rw [← List.singleton_append, lastOr_append, lastOr_singleton]
      exact hat
    obtain ⟨rfl, rfl⟩ := List.cons.inj hrest
    rfl
  | cut hat _ _ => exact absurd hat (hnone [] _ _ rfl)

theorem subn_of_not_found (filler : List Char) (h : ¬ e.Found s) : subn e filler s = (s, 0) := by
  have hpieces : pieces e s = [s] :=
    (cuts_pieces e s).eq_singleton fun a w b hs hat => h ⟨a, w, b, hs, hat⟩
  rw [subn, hpieces, List.intercalate_singleton]
  rfl

end Sub

end SpineFormal.Re
