import SpineFormal.Base.Numerals
import SpineFormal.Base.TextRecords
import SpineFormal.Verify.PathFilters

/-!
# Patterns segment by segment

What a pattern of literals, `*` and `**` says about the segments of a path, and the patterns
for which `path_matches_glob` says the same about every relative path.
-/

namespace SpineFormal.Verify

open Re
set_option autoImplicit false

/-! ## The specification -/

/-- A segment of literal characters and single stars. -/
structure SegmentName where
  text : List Char
  plain : ∀ c ∈ text, c ∉ ['/', '\\', '?', '[']
  apart : ¬ ['*', '*'] <:+: text

inductive Segment where
  | anyDepth
  | name (n : SegmentName)

def Segment.text : Segment → List Char
  | .anyDepth => ['*', '*']
  | .name n => n.text

def segmentsText (ps : List Segment) : List Char := ['/'].intercalate (ps.map Segment.text)

structure GlobPattern where
  segments : List Segment
  nonempty : segments ≠ []
  relative : (segmentsText segments).head? ≠ some '/'

def GlobPattern.text (p : GlobPattern) : List Char := segmentsText p.segments

/-- The text of one segment is what the name spells. -/
def SegmentName.Spells (n : SegmentName) (s : List Char) : Prop :=
  Glob.spells (n.text.map Glob.plainToken) s = true

def SegMatch : List Segment → List (List Char) → Prop
  | [], segs => segs = []
  | .anyDepth :: ps, segs => ∃ u v, segs = u ++ v ∧ SegMatch ps v
  | .name n :: ps, segs => ∃ s rest, segs = s :: rest ∧ n.Spells s ∧ SegMatch ps rest

/-- A backslash separates as a slash does. -/
def slashed (path : List Char) : List Char := path.map fun c => if c = '\\' then '/' else c

def Relative (path : List Char) : Prop := (slashed path).head? ≠ some '/'

/-- The function says of every relative path what the segments say. Slashes before the pattern
count for nothing. -/
def GlobPattern.Exact (p : GlobPattern) : Prop :=
  ∀ (slashes : Nat) (path : String), Relative path.toList →
    (pathMatchesGlob path (String.ofList (List.replicate slashes '/' ++ p.text)) = true ↔
      SegMatch p.segments ((slashed path.toList).splitOn '/'))

/-- `**/*`, `**/*/*` and so on, the last star with newlines behind it or none. -/
def GlobPattern.OnlyStars (p : GlobPattern) : Prop :=
  ∃ k r, p.segments.map Segment.text =
    ['*', '*'] :: (List.replicate k ['*'] ++ ['*' :: List.replicate r '\n'])

/-! ## Texts -/

section
variable {a b : Segment} {ps : List Segment} {n : SegmentName} {s t : List Char}

theorem segmentsText_singleton (a : Segment) : segmentsText [a] = a.text :=
  List.intercalate_singleton

theorem segmentsText_cons (a b : Segment) (ps : List Segment) :
    segmentsText (a :: b :: ps) = a.text ++ '/' :: segmentsText (b :: ps) := by
  rw [segmentsText, List.map_cons, List.intercalate_cons_of_ne_nil (by simp), List.append_assoc]
  rfl

theorem text_plain (a : Segment) : ∀ c ∈ a.text, c ∉ ['/', '\\', '?', '['] := by
  cases a with
  | anyDepth => exact Numerals.forall_mem_of_all (by decide)
  | name n => exact n.plain

theorem slash_notMem_text (a : Segment) : '/' ∉ a.text := fun h => text_plain a '/' h (by decide)

/-- Induction over the segments of a pattern, of which there is at least one. -/
@[elab_as_elim]
theorem segments_induction {P : List Segment → Prop} {ps : List Segment} (h : ps ≠ [])
    (singleton : ∀ a, P [a]) (cons : ∀ a b ps, P (b :: ps) → P (a :: b :: ps)) : P ps := by
  induction ps with
  | nil => exact absurd rfl h
  | cons a ps ih =>
    cases ps with
    | nil => exact singleton a
    | cons b ps => exact cons a b ps (ih (List.cons_ne_nil b ps))

theorem segmentsText_plain (hps : ps ≠ []) :
    ∀ c ∈ segmentsText ps, c ∉ ['\\', '?', '['] := by
  have hplain : ∀ a : Segment, ∀ c ∈ a.text, c ∉ ['\\', '?', '['] := by
    intro a c hc hmem
    exact text_plain a c hc (List.mem_cons_of_mem '/' hmem)
  refine segments_induction hps (fun a => ?_) fun a b ps ih => ?_
  · rw [segmentsText_singleton]
    exact hplain a
  · rw [segmentsText_cons]
    intro c hc
    rcases List.mem_append.mp hc with hc | hc
    · exact hplain a c hc
    · rcases List.mem_cons.mp hc with rfl | hc
      · decide
      · exact ih c hc

theorem count_segmentsText (hps : ps ≠ []) : (segmentsText ps).count '/' + 1 = ps.length := by
  refine segments_induction hps (fun a => ?_) fun a b ps ih => ?_
  · rw [segmentsText_singleton, List.count_eq_zero_of_not_mem (slash_notMem_text a)]
    rfl
  · rw [segmentsText_cons, List.count_append, List.count_eq_zero_of_not_mem (slash_notMem_text a),
      List.count_cons_self, Nat.zero_add, ih]
    rfl

theorem splitOn_segmentsText (hps : ps ≠ []) :
    (segmentsText ps).splitOn '/' = ps.map Segment.text := by
  refine List.splitOn_intercalate '/' (fun l hl => ?_) (by simpa using hps)
  obtain ⟨a, -, rfl⟩ := List.mem_map.mp hl
  exact slash_notMem_text a

theorem doubleStar_infix_iff (hps : ps ≠ []) :
    ['*', '*'] <:+: segmentsText ps ↔ .anyDepth ∈ ps := by
  have hone : ∀ a : Segment, ['*', '*'] <:+: a.text ↔ a = .anyDepth := by
    intro a
    cases a with
    | anyDepth => exact iff_of_true List.infix_rfl rfl
    | name n => exact iff_of_false n.apart (by simp)
  refine segments_induction hps (fun a => ?_) fun a b ps ih => ?_
  · rw [segmentsText_singleton, hone, List.mem_singleton, eq_comm]
  · rw [segmentsText_cons, infix_append_cons (by decide) (by decide), ih, hone, eq_comm]
    exact List.mem_cons.symm

/-! ## The function on a pattern's text -/

theorem slashed_of_notMem (h : '\\' ∉ s) : slashed s = s :=
  (List.map_congr_left fun c hc => if_neg fun heq : c = '\\' => h (heq ▸ hc)).trans (List.map_id s)

theorem backslash_notMem_slashed (s : List Char) : '\\' ∉ slashed s := by
  intro h
  obtain ⟨c, -, hc⟩ := List.mem_map.mp h
  split at hc
  · cases hc
  · contradiction

theorem dropWhile_slash (h : s.head? ≠ some '/') (slashes : Nat) :
    (List.replicate slashes '/' ++ s).dropWhile (fun c => c = '/') = s := by
  induction slashes with
  | zero =>
    cases s with
    | nil => rfl
    | cons c s =>
      refine List.dropWhile_cons_of_neg ?_
      rw [decide_eq_true_iff]
      exact fun heq => h (congrArg some heq)
  | succ k ih => exact ih

theorem normalizePath_of_relative (h : Relative s) : normalizePath s = slashed s :=
  dropWhile_slash h 0

theorem normalizePath_pattern (p : GlobPattern) (slashes : Nat) :
    normalizePath (List.replicate slashes '/' ++ p.text) = p.text := by
  have hslash : '\\' ∉ List.replicate slashes '/' ++ p.text := by
    intro h
    rcases List.mem_append.mp h with h | h
    · cases (List.mem_replicate.mp h).2
    · exact segmentsText_plain p.nonempty _ h (by decide)
  have hmap : normalizePath (List.replicate slashes '/' ++ p.text) =
      (slashed (List.replicate slashes '/' ++ p.text)).dropWhile fun c => c = '/' := rfl
  rw [hmap, slashed_of_notMem hslash]
  exact dropWhile_slash p.relative slashes

theorem prefix_anyDepth_iff (a b : Segment) (ps : List Segment) :
    ['*', '*', '/'] <+: segmentsText (a :: b :: ps) ↔ a = .anyDepth := by
  rw [segmentsText_cons]
  cases a with
  | anyDepth => exact iff_of_true (List.prefix_append ['*', '*', '/'] _) rfl
  | name n =>
    refine iff_of_false (fun h => n.apart ?_) (by simp)
    have hstars : ['*', '*'] <+: n.text ++ '/' :: segmentsText (b :: ps) :=
      (List.prefix_append ['*', '*'] ['/']).trans h
    exact ((prefix_append_cons (by decide) _ _).mp hstars).isInfix

theorem patternVariants_anyDepth (b : Segment) (ps : List Segment) :
    patternVariants (segmentsText (.anyDepth :: b :: ps)) =
      [segmentsText (.anyDepth :: b :: ps), segmentsText (b :: ps)] := by
  rw [patternVariants, if_pos ((prefix_anyDepth_iff _ b ps).mpr rfl), segmentsText_cons]
  rfl

theorem patternVariants_singleton (a : Segment) :
    patternVariants (segmentsText [a]) = [segmentsText [a]] := by
  refine congrArg _ (if_neg fun h => slash_notMem_text a ?_)
  exact segmentsText_singleton a ▸ h.subset (by simp)

theorem patternVariants_name (n : SegmentName) (ps : List Segment) :
    patternVariants (segmentsText (.name n :: ps)) = [segmentsText (.name n :: ps)] := by
  cases ps with
  | nil => exact patternVariants_singleton (.name n)
  | cons b ps =>
    refine congrArg _ (if_neg fun h => ?_)
    cases (prefix_anyDepth_iff (.name n) b ps).mp h

def tokens (ps : List Segment) : List Glob.Token := (segmentsText ps).map Glob.plainToken

def Segment.items : Segment → List Item
  | .anyDepth => [.dots]
  | .name n => scanItems n.text

/-- The items of the regular expression of a pattern. -/
def patternItems (ps : List Segment) : List Item := readItems (globText (segmentsText ps))

theorem patternItems_eq (hps : ps ≠ []) : patternItems ps =
    scanItems (replaceText ['*', '*'] placeholder (segmentsText ps)) := by
  refine readItems_globText ?_
  have hone : ∀ a : Segment, '\\' ∉ replaceText ['*', '*'] placeholder a.text := by
    intro a
    cases a with
    | anyDepth => decide
    | name n =>
      rw [Segment.text, replaceText_of_not_infix n.apart]
      exact fun h => n.plain _ h (by decide)
  refine segments_induction hps (fun a => ?_) fun a b ps ih => ?_
  · rw [segmentsText_singleton]
    exact hone a
  · rw [segmentsText_cons, replaceText_append_cons (by decide) (by decide), List.mem_append,
      List.mem_cons, not_or, not_or]
    exact ⟨hone a, by decide, ih⟩

theorem scanItems_text (a : Segment) :
    scanItems (replaceText ['*', '*'] placeholder a.text) = a.items := by
  cases a with
  | anyDepth => decide
  | name n => rw [Segment.text, replaceText_of_not_infix n.apart, Segment.items]

theorem patternItems_singleton (a : Segment) : patternItems [a] = a.items := by
  rw [patternItems_eq (List.cons_ne_nil a []), segmentsText_singleton, scanItems_text]

theorem patternItems_cons (a b : Segment) (ps : List Segment) :
    patternItems (a :: b :: ps) = a.items ++ .lit '/' :: patternItems (b :: ps) := by
  rw [patternItems_eq (List.cons_ne_nil a _), segmentsText_cons,
    replaceText_append_cons (by decide) (by decide), scanItems_append_slash, scanItems_text,
    patternItems_eq (List.cons_ne_nil b ps)]

/-! ## What items spell -/

def ItemsSpell (items : List Item) (w : List Char) : Prop := Spells (seqs (items.map Item.regex)) w

theorem itemsSpell_append {is js : List Item} {w : List Char} : ItemsSpell (is ++ js) w ↔
    ∃ u v, w = u ++ v ∧ ItemsSpell is u ∧ ItemsSpell js v := by
  rw [ItemsSpell, List.map_append, spells_seqs_append]
  rfl

theorem itemsSpell_lit {d : Char} {is : List Item} {w : List Char} :
    ItemsSpell (.lit d :: is) w ↔ ∃ v, w = d :: v ∧ ItemsSpell is v := by
  rw [ItemsSpell, List.map_cons, spells_seqs_cons]
  constructor
  · rintro ⟨u, v, rfl, hu, hv⟩
    cases hu with
    | cls hc =>
      obtain rfl := eq_of_beq hc
      exact ⟨v, rfl, hv⟩
  · rintro ⟨v, rfl, hv⟩
    exact ⟨[d], v, rfl, .cls (beq_self_eq_true d), hv⟩

theorem itemsSpell_dots {is : List Item} {w : List Char} :
    ItemsSpell (.dots :: is) w ↔ ∃ u v, w = u ++ v ∧ '\n' ∉ u ∧ ItemsSpell is v := by
  rw [ItemsSpell, List.map_cons, spells_seqs_cons]
  have hdots : ∀ u, Spells Item.dots.regex u ↔ '\n' ∉ u := by
    intro u
    rw [Item.regex, spells_many_iff]
    constructor
    · exact fun h hmem => bne_iff_ne.mp (h _ hmem) rfl
    · exact fun h c hc => bne_iff_ne.mpr fun heq => h (heq ▸ hc)
  simp only [hdots]
  rfl

theorem itemsSpell_inSegment {is : List Item} {w : List Char} :
    ItemsSpell (.inSegment :: is) w ↔ ∃ u v, w = u ++ v ∧ '/' ∉ u ∧ ItemsSpell is v := by
  rw [ItemsSpell, List.map_cons, spells_seqs_cons]
  have hin : ∀ u, Spells Item.inSegment.regex u ↔ '/' ∉ u := by
    intro u
    rw [Item.regex, spells_many_iff]
    constructor
    · exact fun h hmem => bne_iff_ne.mp (h _ hmem) rfl
    · exact fun h c hc => bne_iff_ne.mpr fun heq => h (heq ▸ hc)
  simp only [hin]
  rfl

/-- The whole of the path, or all but a newline at its end. -/
theorem matchesItems_iff {is : List Item} {path : List Char} : matchesItems is path = true ↔
    ItemsSpell is path ∨ ∃ w, path = w ++ ['\n'] ∧ ItemsSpell is w := by
  rw [matchesItems, List.any_eq_true]
  constructor
  · rintro ⟨⟨w, t⟩, hmem, hend⟩
    obtain ⟨rfl, hw⟩ := mem_splits.mp hmem
    rw [Bool.or_eq_true, decide_eq_true_iff, decide_eq_true_iff] at hend
    rcases hend with rfl | rfl
    · exact .inl (by rwa [List.append_nil])
    · exact .inr ⟨w, rfl, hw⟩
  · rintro (h | ⟨w, rfl, hw⟩)
    · exact ⟨(path, []), mem_splits.mpr ⟨(List.append_nil path).symm, h⟩, rfl⟩
    · exact ⟨(w, ['\n']), mem_splits.mpr ⟨rfl, hw⟩, rfl⟩

end

end SpineFormal.Verify
