import SpineFormal.Base.RegexSub
import SpineFormal.Base.TextReplace

/-!
# Runs of word characters

A text is runs of word characters with single other characters between them. What replaces words
goes through a text run by run: a replacement of one word by another, and a substitution for the
matches of a pattern between two word boundaries.
-/

namespace SpineFormal

open Re
set_option autoImplicit false

/-! ## Runs -/

/-- The first run, and the others after the characters before them. -/
abbrev RunText := List Char × List (Char × List Char)

def runsOf (word : Char → Bool) : List Char → RunText
  | [] => ([], [])
  | c :: s =>
    let r := runsOf word s
    if word c then (c :: r.1, r.2) else ([], (c, r.1) :: r.2)

def joinRuns (r : RunText) : List Char := r.1 ++ r.2.flatMap fun p => p.1 :: p.2

def runs (word : Char → Bool) (s : List Char) : List (List Char) :=
  (runsOf word s).1 :: (runsOf word s).2.map Prod.snd

def mapRun (f : List Char → List Char) (r : RunText) : RunText :=
  (f r.1, r.2.map fun p => (p.1, f p.2))

/-- Every run changed in its place. -/
def mapRuns (word : Char → Bool) (f : List Char → List Char) (s : List Char) : List Char :=
  joinRuns (mapRun f (runsOf word s))

structure IsRuns (word : Char → Bool) (r : RunText) : Prop where
  first : ∀ c ∈ r.1, word c = true
  rest : ∀ p ∈ r.2, word p.1 = false ∧ ∀ c ∈ p.2, word c = true

section
variable {word : Char → Bool} {f g : List Char → List Char} {s : List Char} {r : RunText}

theorem isRuns_runsOf (s : List Char) : IsRuns word (runsOf word s) := by
  induction s with
  | nil => exact ⟨by simp [runsOf], by simp [runsOf]⟩
  | cons c s ih =>
    rw [runsOf]
    split
    · rename_i hc
      exact ⟨List.forall_mem_cons.mpr ⟨hc, ih.first⟩, ih.rest⟩
    · rename_i hc
      exact ⟨by simp, List.forall_mem_cons.mpr ⟨⟨Bool.eq_false_iff.mpr hc, ih.first⟩, ih.rest⟩⟩

theorem joinRuns_runsOf (s : List Char) : joinRuns (runsOf word s) = s := by
  induction s with
  | nil => rfl
  | cons c s ih =>
    rw [runsOf]
    split
    · exact congrArg (c :: ·) ih
    · exact congrArg (c :: ·) ih

theorem joinRuns_cons (x : List Char) (c : Char) (y : List Char) (rest : List (Char × List Char)) :
    joinRuns (x, (c, y) :: rest) = x ++ c :: joinRuns (y, rest) := by
  rw [joinRuns, List.flatMap_cons]
  rfl

theorem runsOf_append {x : List Char} (hx : ∀ c ∈ x, word c = true) (s : List Char) :
    runsOf word (x ++ s) = (x ++ (runsOf word s).1, (runsOf word s).2) := by
  induction x with
  | nil => rfl
  | cons c x ih =>
    obtain ⟨hc, hx⟩ := List.forall_mem_cons.mp hx
    rw [List.cons_append, runsOf, if_pos hc, ih hx]
    rfl

theorem runsOf_joinRuns (h : IsRuns word r) : runsOf word (joinRuns r) = r := by
  obtain ⟨x, rest⟩ := r
  induction rest generalizing x with
  | nil =>
    have hx := runsOf_append h.first []
    rw [joinRuns, List.flatMap_nil, hx]
    exact congrArg₂ Prod.mk (List.append_nil x) rfl
  | cons p rest ih =>
    obtain ⟨c, y⟩ := p
    obtain ⟨⟨hc, hy⟩, hrest⟩ := List.forall_mem_cons.mp h.rest
    rw [joinRuns_cons, runsOf_append h.first, runsOf, if_neg (Bool.eq_false_iff.mp hc),
      ih y ⟨hy, hrest⟩]
    exact congrArg₂ Prod.mk (List.append_nil x) rfl

theorem mem_runs_iff {x : List Char} : x ∈ runs word s ↔
    x = (runsOf word s).1 ∨ ∃ c, (c, x) ∈ (runsOf word s).2 := by
  rw [runs, List.mem_cons, List.mem_map]
  refine or_congr Iff.rfl ⟨?_, ?_⟩
  · rintro ⟨⟨c, y⟩, hmem, rfl⟩
    exact ⟨c, hmem⟩
  · rintro ⟨c, hmem⟩
    exact ⟨(c, x), hmem, rfl⟩

theorem isRuns_mapRun (hr : IsRuns word r) (hf : ∀ x, (∀ c ∈ x, word c = true) →
    ∀ c ∈ f x, word c = true) : IsRuns word (mapRun f r) := by
  refine ⟨hf _ hr.first, fun p hp => ?_⟩
  obtain ⟨q, hq, rfl⟩ := List.mem_map.mp hp
  exact ⟨(hr.rest q hq).1, hf _ (hr.rest q hq).2⟩

theorem mapRuns_mapRuns (hg : ∀ x, (∀ c ∈ x, word c = true) → ∀ c ∈ g x, word c = true)
    (s : List Char) : mapRuns word f (mapRuns word g s) = mapRuns word (f ∘ g) s := by
  rw [mapRuns, mapRuns, runsOf_joinRuns (isRuns_mapRun (isRuns_runsOf s) hg), mapRuns, mapRun,
    mapRun, mapRun, List.map_map]
  rfl

theorem mapRuns_congr (h : ∀ x ∈ runs word s, f x = g x) : mapRuns word f s = mapRuns word g s := by
  rw [mapRuns, mapRuns, mapRun, mapRun, h _ (mem_runs_iff.mpr (.inl rfl))]
  refine congrArg (fun rest => joinRuns (_, rest)) (List.map_congr_left fun p hp => ?_)
  rw [h _ (mem_runs_iff.mpr (.inr ⟨p.1, hp⟩))]

/-- A text stays as it is only if every run does. -/
theorem mapRuns_eq_self_iff (hf : ∀ x, (∀ c ∈ x, word c = true) → ∀ c ∈ f x, word c = true) :
    mapRuns word f s = s ↔ ∀ x ∈ runs word s, f x = x := by
  constructor
  · intro h
    have hruns : mapRun f (runsOf word s) = runsOf word s := by
      rw [← runsOf_joinRuns (isRuns_mapRun (isRuns_runsOf s) hf)]
      exact congrArg (runsOf word) h
    intro x hx
    rcases mem_runs_iff.mp hx with rfl | ⟨c, hmem⟩
    · exact congrArg Prod.fst hruns
    · have hrest : (runsOf word s).2.map (fun p => (p.1, f p.2)) = (runsOf word s).2.map id :=
        (congrArg Prod.snd hruns).trans (List.map_id _).symm
      exact congrArg Prod.snd (List.map_inj_left.mp hrest (c, x) hmem)
  · intro h
    have hid : mapRuns word f s = mapRuns word id s := mapRuns_congr h
    have hsame : mapRun id (runsOf word s) = runsOf word s :=
      congrArg (Prod.mk _) (List.map_id _)
    rw [hid, mapRuns, hsame, joinRuns_runsOf]

/-! ## Replacing a word -/

theorem replaceText_mapRuns {old new : List Char} (hne : old ≠ []) (hold : ∀ c ∈ old, word c = true)
    (s : List Char) : replaceText old new s = mapRuns word (replaceText old new) s := by
  have hjoin : ∀ r : RunText, IsRuns word r →
      replaceText old new (joinRuns r) = joinRuns (mapRun (replaceText old new) r) := by
    rintro ⟨x, rest⟩ hr
    induction rest generalizing x with
    | nil => simp [joinRuns, mapRun]
    | cons p rest ih =>
      obtain ⟨c, y⟩ := p
      obtain ⟨⟨hc, hy⟩, hrest⟩ := List.forall_mem_cons.mp hr.rest
      have hsep : c ∉ old := fun hmem => Bool.eq_false_iff.mp hc (hold c hmem)
      rw [joinRuns_cons, replaceText_append_cons hne hsep, ih y ⟨hy, hrest⟩]
      exact (joinRuns_cons _ c _ _).symm
  rw [mapRuns, ← hjoin _ (isRuns_runsOf s), joinRuns_runsOf]

theorem word_replaceText {old new : List Char} (hne : old ≠ []) (hnew : ∀ c ∈ new, word c = true)
    (hs : ∀ c ∈ s, word c = true) : ∀ c ∈ replaceText old new s, word c = true := by
  induction s using replace_induction hne with
  | nil => exact hs
  | found t ih =>
    rw [replaceText_front hne]
    intro c hc
    rcases List.mem_append.mp hc with hc | hc
    · exact hnew c hc
    · exact ih (fun d hd => hs d (List.mem_append_right old hd)) c hc
  | other d t hpre ih =>
    obtain ⟨hd, ht⟩ := List.forall_mem_cons.mp hs
    rw [replaceText_cons hpre]
    exact List.forall_mem_cons.mpr ⟨hd, ih ht⟩

/-- One replacement after another. -/
def replaceAll (ps : List (List Char × List Char)) (s : List Char) : List Char :=
  ps.foldl (fun s p => replaceText p.1 p.2 s) s

structure IsWordPair (word : Char → Bool) (p : List Char × List Char) : Prop where
  nonempty : p.1 ≠ []
  old : ∀ c ∈ p.1, word c = true
  new : ∀ c ∈ p.2, word c = true

theorem word_replaceAll {ps : List (List Char × List Char)} (hps : ∀ p ∈ ps, IsWordPair word p)
    (hs : ∀ c ∈ s, word c = true) : ∀ c ∈ replaceAll ps s, word c = true := by
  induction ps generalizing s with
  | nil => exact hs
  | cons p ps ih =>
    obtain ⟨hp, hps⟩ := List.forall_mem_cons.mp hps
    exact ih hps (word_replaceText hp.nonempty hp.new hs)

theorem replaceAll_mapRuns {ps : List (List Char × List Char)}
    (hps : ∀ p ∈ ps, IsWordPair word p) (s : List Char) :
    replaceAll ps s = mapRuns word (replaceAll ps) s := by
  induction ps generalizing s with
  | nil =>
    have hid : mapRun (replaceAll []) (runsOf word s) = runsOf word s :=
      congrArg (Prod.mk _) (List.map_id _)
    rw [mapRuns, hid, joinRuns_runsOf]
    rfl
  | cons p ps ih =>
    obtain ⟨hp, hps⟩ := List.forall_mem_cons.mp hps
    have hstep : ∀ x, replaceAll (p :: ps) x = replaceAll ps (replaceText p.1 p.2 x) :=
      fun _ => rfl
    have hcomp : replaceAll (p :: ps) = replaceAll ps ∘ replaceText p.1 p.2 := rfl
    rw [hstep, ih hps, replaceText_mapRuns hp.nonempty hp.old,
      mapRuns_mapRuns fun _ => word_replaceText hp.nonempty hp.new, hcomp]

theorem replaceAll_of_fixed {ps : List (List Char × List Char)}
    (h : ∀ p ∈ ps, replaceText p.1 p.2 s = s) : replaceAll ps s = s := by
  induction ps with
  | nil => rfl
  | cons p ps ih =>
    obtain ⟨hp, hps⟩ := List.forall_mem_cons.mp h
    have hstep : replaceAll (p :: ps) s = replaceAll ps (replaceText p.1 p.2 s) := rfl
    rw [hstep, hp, ih hps]

theorem replaceAll_append (ps qs : List (List Char × List Char)) (s : List Char) :
    replaceAll (ps ++ qs) s = replaceAll qs (replaceAll ps s) := List.foldl_append

end

/-! ## The matches of a pattern and what is between them -/

inductive Part where
  | found (w : List Char)
  | other (c : Char)

/-- What `re.sub` goes through once the first `skip` characters are passed over. -/
def partsFrom (e : Pattern) : Nat → Option Char → List Char → List Part
  | _, _, [] => []
  | skip + 1, _, c :: s => partsFrom e skip (some c) s
  | 0, prev, c :: s =>
    match e.matchAt prev (c :: s) with
    | some (w, _) => .found w :: partsFrom e (w.length - 1) (some c) s
    | none => .other c :: partsFrom e 0 (some c) s

/-- `re.sub` with a function that keeps a state. -/
def subParts {σ : Type} (f : σ → List Char → σ × List Char) : σ → List Part → σ × List Char
  | st, [] => (st, [])
  | st, .found w :: ps => ((subParts f (f st w).1 ps).1, (f st w).2 ++ (subParts f (f st w).1 ps).2)
  | st, .other c :: ps => ((subParts f st ps).1, c :: (subParts f st ps).2)

section
variable {word : Char → Bool} {e : Pattern} {prev : Option Char} {s t w : List Char}

theorem partsFrom_length (prev : Option Char) (w t : List Char) :
    partsFrom e w.length prev (w ++ t) = partsFrom e 0 (lastOr prev w) t := by
  induction w generalizing prev with
  | nil => rfl
  | cons c w ih =>
    rw [← List.singleton_append, lastOr_append, lastOr_singleton]
    exact ih (some c)

theorem partsFrom_found (h : e.matchAt prev (w ++ t) = some (w, t)) :
    partsFrom e 0 prev (w ++ t) = .found w :: partsFrom e 0 (lastOr prev w) t := by
  have hne := Pattern.ne_nil_of_spells (Pattern.at_of_matchAt h).2.spells
  obtain ⟨c, w, rfl⟩ := List.exists_cons_of_ne_nil hne
  rw [List.cons_append] at h ⊢
  rw [partsFrom, h]
  refine congrArg (Part.found (c :: w) :: ·) ?_
  rw [← List.singleton_append, lastOr_append, lastOr_singleton]
  exact partsFrom_length (some c) w t

theorem partsFrom_other {c : Char} (h : e.matchAt prev (c :: s) = none) :
    partsFrom e 0 prev (c :: s) = .other c :: partsFrom e 0 (some c) s := by
  rw [partsFrom, h]

/-- A pattern of words between two boundaries. -/
structure WordPattern (word : Char → Bool) (e : Pattern) : Prop where
  opening : e.opening = .boundary word
  closing : e.closing = .boundary word
  words : ∀ w, Spells e.core w → ∀ c ∈ w, word c = true

/-- A run the pattern spells is one match, any other is none. -/
def runParts (ident : List Char → Bool) (x : List Char) : List Part :=
  if ident x then [.found x] else x.map .other

variable {ident : List Char → Bool}

theorem partsFrom_inside (he : WordPattern word e) {prev : Char} (hprev : word prev = true)
    {x : List Char} (hx : ∀ c ∈ x, word c = true) (t : List Char) :
    partsFrom e 0 (some prev) (x ++ t) =
      x.map .other ++ partsFrom e 0 (lastOr (some prev) x) t := by
  induction x generalizing prev with
  | nil => rfl
  | cons c x ih =>
    obtain ⟨hc, hx⟩ := List.forall_mem_cons.mp hx
    have hno : e.matchAt (some prev) (c :: (x ++ t)) = none := by
      rw [Pattern.matchAt, he.opening, if_neg]
      simp [Look.holds, hprev, hc]
    rw [List.cons_append, partsFrom_other hno, ih hc hx, ← List.singleton_append (l := x),
      lastOr_append, lastOr_singleton]
    rfl

theorem any_lastOr (hne : w ≠ []) (hw : ∀ c ∈ w, word c = true) :
    (lastOr prev w).any word = true := by
  rw [lastOr, List.getLast?_eq_some_getLast hne]
  exact hw _ (List.getLast_mem hne)

/-- A match takes the whole of a run. -/
theorem eq_of_at (he : WordPattern word e) {x t' : List Char} (hx : ∀ c ∈ x, word c = true)
    (ht : t.head?.any word = false) (hat : e.At prev w t') (h : x ++ t = w ++ t') :
    x = w ∧ t = t' := by
  have hne := Pattern.ne_nil_of_spells hat.spells
  have hw := he.words w hat.spells
  have ht' : t'.head?.any word = false := by
    have hcloses := hat.closes
    rw [he.closing, Look.holds, any_lastOr hne hw] at hcloses
    simpa using hcloses
  have hnil : ∀ y u : List Char, (∀ c ∈ y, word c = true) → (y ++ u).head?.any word = false →
      y = [] := by
    intro y u hy hu
    cases y with
    | nil => rfl
    | cons c y =>
      have hc : word c = false := hu
      rw [hy c List.mem_cons_self] at hc
      cases hc
  rcases List.append_eq_append_iff.mp h with ⟨y, rfl, rfl⟩ | ⟨y, rfl, rfl⟩
  · obtain rfl := hnil y t' (fun c hc => hw c (List.mem_append_right x hc)) ht
    exact ⟨(List.append_nil x).symm, rfl⟩
  · obtain rfl := hnil y t (fun c hc => hx c (List.mem_append_right w hc)) ht'
    exact ⟨List.append_nil w, rfl⟩

theorem partsFrom_run (he : WordPattern word e) (hident : ∀ w, Spells e.core w ↔ ident w = true)
    (hprev : prev.any word = false) {x : List Char} (hx : ∀ c ∈ x, word c = true)
    (ht : t.head?.any word = false) : partsFrom e 0 prev (x ++ t) =
      runParts ident x ++ partsFrom e 0 (lastOr prev x) t := by
  rw [runParts]
  split
  · rename_i hspells
    rw [← hident] at hspells
    have hne := Pattern.ne_nil_of_spells hspells
    have hat : e.At prev x t := by
      refine ⟨?_, hspells, ?_⟩
      · obtain ⟨c, y, rfl⟩ := List.exists_cons_of_ne_nil hne
        have hc : word c = true := hx c List.mem_cons_self
        simp [he.opening, Look.holds, hprev, hc]
      · simp [he.closing, Look.holds, any_lastOr hne hx, ht]
    cases hmatch : e.matchAt prev (x ++ t) with
    | none => exact absurd hat (Pattern.not_at_of_matchAt hmatch)
    | some p =>
      obtain ⟨hs, hat'⟩ := Pattern.at_of_matchAt (w := p.1) (t := p.2) hmatch
      obtain ⟨hw, hrest⟩ := eq_of_at he hx ht hat' hs
      have hp : p = (x, t) := by rw [hw, hrest]
      exact partsFrom_found (hmatch.trans (congrArg some hp))
  · rename_i hno
    cases x with
    | nil => rfl
    | cons c x =>
      obtain ⟨hc, hx'⟩ := List.forall_mem_cons.mp hx
      have hnone : e.matchAt prev (c :: (x ++ t)) = none := by
        cases hmatch : e.matchAt prev (c :: (x ++ t)) with
        | none => rfl
        | some p =>
          obtain ⟨hs, hat⟩ := Pattern.at_of_matchAt (w := p.1) (t := p.2) hmatch
          obtain ⟨hw, -⟩ := eq_of_at he hx ht hat hs
          exact absurd ((hident _).mp (hw ▸ hat.spells)) hno
      rw [List.cons_append, partsFrom_other hnone, partsFrom_inside he hc hx',
        ← List.singleton_append (l := x), lastOr_append, lastOr_singleton]
      rfl

/-- The parts of a text, run by run. -/
theorem partsFrom_joinRuns (he : WordPattern word e)
    (hident : ∀ w, Spells e.core w ↔ ident w = true) {r : RunText} (hr : IsRuns word r)
    (hprev : prev.any word = false) : partsFrom e 0 prev (joinRuns r) =
      runParts ident r.1 ++ r.2.flatMap fun p => .other p.1 :: runParts ident p.2 := by
  obtain ⟨x, rest⟩ := r
  induction rest generalizing x prev with
  | nil =>
    have hrun := partsFrom_run he hident hprev hr.first (t := []) rfl
    rw [List.append_nil] at hrun
    rw [joinRuns, List.flatMap_nil, List.append_nil, hrun]
    rfl
  | cons p rest ih =>
    obtain ⟨c, y⟩ := p
    obtain ⟨⟨hc, hy⟩, hrest⟩ := List.forall_mem_cons.mp hr.rest
    have hnone : ∀ q, e.matchAt q (c :: joinRuns (y, rest)) = none := by
      intro q
      cases hmatch : e.matchAt q (c :: joinRuns (y, rest)) with
      | none => rfl
      | some p =>
        obtain ⟨hs, hat⟩ := Pattern.at_of_matchAt (w := p.1) (t := p.2) hmatch
        have hne := Pattern.ne_nil_of_spells hat.spells
        obtain ⟨d, w, hw⟩ := List.exists_cons_of_ne_nil hne
        rw [hw] at hs
        obtain ⟨rfl, -⟩ := List.cons.inj hs
        have hd := he.words _ hat.spells c (hw ▸ List.mem_cons_self)
        rw [hc] at hd
        cases hd
    have hsome : (some c).any word = false := hc
    rw [joinRuns_cons, partsFrom_run he hident hprev hr.first (t := c :: joinRuns (y, rest)) hc,
      partsFrom_other (hnone _), ih hsome y ⟨hy, hrest⟩, List.flatMap_cons]
    rfl

end

end SpineFormal
