import SpineFormal.Verify.GlobSegments

/-!
# Where the function and the segments agree

A path takes part of a pattern at each slash, so a path with too few slashes does not match, and
one with too many does not follow the segments.
-/

namespace SpineFormal.Verify

open Re
set_option autoImplicit false

section
variable {a b : Segment} {n : SegmentName} {ps : List Segment} {s t w : List Char}
  {segs : List (List Char)} {x : Char}

/-! ## One variant -/

def OneMatches (ps : List Segment) (w : List Char) : Prop :=
  pathMatchesGlobOne w (segmentsText ps) = true

theorem oneMatches_anyDepth (hps : ps ≠ []) (h : .anyDepth ∈ ps) :
    OneMatches ps w ↔ matchesItems (patternItems ps) w = true := by
  rw [OneMatches, pathMatchesGlobOne, if_neg (not_not_intro ((doubleStar_infix_iff hps).mpr h))]
  rfl

theorem oneMatches_names (hps : ps ≠ []) (h : .anyDepth ∉ ps) :
    OneMatches ps w ↔ Glob.spells (tokens ps) w = true := by
  have hplain : ∀ c ∈ segmentsText ps, c ≠ '?' ∧ c ≠ '[' := by
    intro c hc
    have hno := segmentsText_plain hps c hc
    simp only [List.mem_cons, List.not_mem_nil, or_false, not_or] at hno
    exact hno.2
  rw [OneMatches, pathMatchesGlobOne, if_pos fun hstars => h ((doubleStar_infix_iff hps).mp hstars),
    Glob.translate_plain hplain, tokens]

/-- Some variant of the pattern matches. -/
def SomeMatches (ps : List Segment) (w : List Char) : Prop :=
  (patternVariants (segmentsText ps)).any (pathMatchesGlobOne w) = true

theorem someMatches_singleton : SomeMatches [a] w ↔ OneMatches [a] w := by
  rw [SomeMatches, patternVariants_singleton, List.any_cons, List.any_nil, Bool.or_false]
  rfl

theorem someMatches_name : SomeMatches (.name n :: ps) w ↔ OneMatches (.name n :: ps) w := by
  rw [SomeMatches, patternVariants_name, List.any_cons, List.any_nil, Bool.or_false]
  rfl

theorem someMatches_anyDepth : SomeMatches (.anyDepth :: b :: ps) w ↔
    OneMatches (.anyDepth :: b :: ps) w ∨ OneMatches (b :: ps) w := by
  rw [SomeMatches, patternVariants_anyDepth, List.any_cons, List.any_cons, List.any_nil,
    Bool.or_false, Bool.or_eq_true]
  rfl

def Agrees (ps : List Segment) : Prop :=
  ∀ w, '\\' ∉ w → w.head? ≠ some '/' → (SomeMatches ps w ↔ SegMatch ps (w.splitOn '/'))

theorem GlobPattern.exact_iff_agrees (p : GlobPattern) : p.Exact ↔ Agrees p.segments := by
  have hcode : ∀ (slashes : Nat) (path : String), Relative path.toList →
      (pathMatchesGlob path (String.ofList (List.replicate slashes '/' ++ p.text)) = true ↔
        SomeMatches p.segments (slashed path.toList)) := by
    intro slashes path hrel
    rw [pathMatchesGlob, String.toList_ofList, normalizePath_pattern,
      normalizePath_of_relative hrel]
    rfl
  constructor
  · intro h w hslash hhead
    have hw : slashed (String.ofList w).toList = w := by
      rw [String.toList_ofList, slashed_of_notMem hslash]
    have hrel : Relative (String.ofList w).toList := by
      rwa [Relative, hw]
    rw [← hw, ← h 0 (String.ofList w) hrel, hcode 0 (String.ofList w) hrel]
  · intro h slashes path hrel
    rw [hcode slashes path hrel]
    exact h _ (backslash_notMem_slashed _) hrel

/-! ## Slashes -/

theorem length_le_of_itemsSpell (hps : ps ≠ []) (h : ItemsSpell (patternItems ps) w) :
    ps.length ≤ w.count '/' + 1 := by
  refine segments_induction (P := fun ps => ∀ w, ItemsSpell (patternItems ps) w →
    ps.length ≤ w.count '/' + 1) hps (fun a w _ => ?_) (fun a b ps ih w h => ?_) w h
  · exact Nat.le_add_left 1 _
  · rw [patternItems_cons, itemsSpell_append] at h
    obtain ⟨u, v, rfl, -, hv⟩ := h
    obtain ⟨rest, rfl, hrest⟩ := itemsSpell_lit.mp hv
    have hlen := ih rest hrest
    rw [List.count_append, List.count_cons_self]
    simp only [List.length_cons] at hlen ⊢
    omega

theorem length_le_of_oneMatches (hps : ps ≠ []) (h : .anyDepth ∈ ps) (hw : OneMatches ps w) :
    ps.length ≤ w.count '/' + 1 := by
  rw [oneMatches_anyDepth hps h, matchesItems_iff] at hw
  rcases hw with hw | ⟨v, rfl, hv⟩
  · exact length_le_of_itemsSpell hps hw
  · have hlen := length_le_of_itemsSpell hps hv
    rw [List.count_append]
    exact hlen.trans (Nat.succ_le_succ (Nat.le_add_right _ _))

/-! ## A pattern filled in -/

def fill (x : Char) (s : List Char) : List Char := s.map fun c => if c = '*' then x else c

theorem count_fill (hx : x ≠ '/') (s : List Char) : (fill x s).count '/' = s.count '/' := by
  induction s with
  | nil => rfl
  | cons c s ih =>
    have hcons : fill x (c :: s) = (if c = '*' then x else c) :: fill x s := rfl
    rw [hcons, List.count_cons, List.count_cons, ih]
    by_cases hc : c = '*'
    · subst hc
      simp [hx]
    · rw [if_neg hc]

theorem notMem_fill {d : Char} (hd : d ≠ x) (hs : d ∉ s) : d ∉ fill x s := by
  intro h
  obtain ⟨c, hc, heq⟩ := List.mem_map.mp h
  split at heq
  · exact hd heq.symm
  · exact hs (heq ▸ hc)

theorem head_fill {d : Char} (hd : d ≠ x) (hs : s.head? ≠ some d) : (fill x s).head? ≠ some d := by
  cases s with
  | nil => exact hs
  | cons c s =>
    have hcons : fill x (c :: s) = (if c = '*' then x else c) :: fill x s := rfl
    rw [hcons, List.head?_cons]
    split
    · exact fun heq => hd (Option.some.inj heq).symm
    · exact hs

theorem itemsSpell_scanItems (hx : x ≠ '/') (s : List Char) :
    ItemsSpell (scanItems s) (fill x s) := by
  induction s using replace_induction placeholder_ne_nil with
  | nil => exact Spells.eps
  | found t ih =>
    rw [scanItems_placeholder, itemsSpell_dots]
    exact ⟨placeholder, fill x t, rfl, by decide, ih⟩
  | other c t hpre ih =>
    have hcons : fill x (c :: t) = (if c = '*' then x else c) :: fill x t := rfl
    rw [scanItems_cons hpre, hcons]
    split
    · exact itemsSpell_inSegment.mpr
        ⟨[x], fill x t, rfl, fun h => hx (List.mem_singleton.mp h).symm, ih⟩
    · exact itemsSpell_lit.mpr ⟨fill x t, rfl, ih⟩

theorem itemsSpell_fill (hx : x ≠ '/') (hn : x ≠ '\n') (hps : ps ≠ []) :
    ItemsSpell (patternItems ps) (fill x (segmentsText ps)) := by
  have hone : ∀ a : Segment, ItemsSpell a.items (fill x a.text) := by
    intro a
    cases a with
    | anyDepth =>
      refine itemsSpell_dots.mpr ⟨[x, x], [], rfl, fun h => ?_, Spells.eps⟩
      simp only [List.mem_cons, List.not_mem_nil, or_false, or_self] at h
      exact hn h.symm
    | name n => exact itemsSpell_scanItems hx n.text
  refine segments_induction hps (fun a => ?_) fun a b ps ih => ?_
  · rw [patternItems_singleton, segmentsText_singleton]
    exact hone a
  · rw [patternItems_cons, segmentsText_cons, itemsSpell_append]
    exact ⟨fill x a.text, '/' :: fill x (segmentsText (b :: ps)), List.map_append, hone a,
      itemsSpell_lit.mpr ⟨_, rfl, ih⟩⟩

/-! ## Segments -/

theorem anyDepth_notMem (h : '*' ∉ segmentsText ps) : .anyDepth ∉ ps := by
  intro hmem
  have hps : ps ≠ [] := List.ne_nil_of_mem hmem
  exact h (((doubleStar_infix_iff hps).mpr hmem).subset List.mem_cons_self)

theorem tokens_cons (a b : Segment) (ps : List Segment) :
    tokens (a :: b :: ps) = a.text.map Glob.plainToken ++ .lit '/' :: tokens (b :: ps) := by
  rw [tokens, segmentsText_cons, List.map_append, List.map_cons]
  rfl

theorem tokens_of_text {pre post : List Char} (h : segmentsText ps = pre ++ '*' :: post)
    (hpost : '*' ∉ post) :
    tokens ps = (pre.map Glob.plainToken ++ [.star]) ++ post.map .lit := by
  rw [tokens, h, List.map_append, List.map_cons, Glob.map_plainToken hpost, List.append_assoc]
  rfl

theorem length_of_segMatch (h : .anyDepth ∉ ps) (hm : SegMatch ps segs) :
    segs.length = ps.length := by
  induction ps generalizing segs with
  | nil => exact congrArg List.length (show segs = [] from hm)
  | cons a ps ih =>
    obtain ⟨ha, hps⟩ := List.ne_and_not_mem_of_not_mem_cons h
    cases a with
    | anyDepth => exact absurd rfl ha
    | name n =>
      obtain ⟨s, rest, rfl, -, hrest⟩ := hm
      rw [List.length_cons, List.length_cons, ih hps hrest]

/-- Names that follow the segments of a path are matched by the shell's stars as well. -/
theorem spells_of_segMatch (hps : ps ≠ []) (h : .anyDepth ∉ ps) (hm : SegMatch ps segs) :
    Glob.spells (tokens ps) (['/'].intercalate segs) = true := by
  refine segments_induction (P := fun ps => ∀ segs, .anyDepth ∉ ps → SegMatch ps segs →
    Glob.spells (tokens ps) (['/'].intercalate segs) = true) hps (fun a segs ha hm => ?_)
    (fun a b ps ih segs ha hm => ?_) segs h hm
  · cases a with
    | anyDepth => exact absurd List.mem_cons_self ha
    | name n =>
      obtain ⟨s, rest, rfl, hs, rfl⟩ := hm
      rw [tokens, segmentsText_singleton, List.intercalate_singleton]
      exact hs
  · obtain ⟨ha, hrest⟩ := List.ne_and_not_mem_of_not_mem_cons ha
    cases a with
    | anyDepth => exact absurd rfl ha
    | name n =>
      obtain ⟨s, rest, rfl, hs, hm⟩ := hm
      have hlen := length_of_segMatch hrest hm
      have hne : rest ≠ [] := List.ne_nil_of_length_pos (hlen ▸ Nat.succ_pos _)
      rw [tokens_cons, List.intercalate_cons_of_ne_nil hne, List.append_assoc]
      exact Glob.spells_append.mpr
        ⟨s, _, rfl, hs, Glob.spells_lit_iff.mpr ⟨_, rfl, ih rest hrest hm⟩⟩

theorem length_le_of_spells (hps : ps ≠ []) (h : Glob.spells (tokens ps) w = true) :
    ps.length ≤ w.count '/' + 1 := by
  refine segments_induction (P := fun ps => ∀ w, Glob.spells (tokens ps) w = true →
    ps.length ≤ w.count '/' + 1) hps (fun a w _ => ?_) (fun a b ps ih w h => ?_) w h
  · exact Nat.le_add_left 1 _
  · rw [tokens_cons] at h
    obtain ⟨u, v, rfl, -, hv⟩ := Glob.spells_append.mp h
    obtain ⟨rest, rfl, hrest⟩ := Glob.spells_lit_iff.mp hv
    have hlen := ih rest hrest
    rw [List.count_append, List.count_cons_self]
    simp only [List.length_cons] at hlen ⊢
    omega

/-! ## The names of a pattern as a path -/

def namesFilled : List Segment → List (List Char)
  | [] => []
  | .anyDepth :: ps => namesFilled ps
  | .name n :: ps => fill 'x' n.text :: namesFilled ps

theorem segMatch_namesFilled (ps : List Segment) : SegMatch ps (namesFilled ps) := by
  induction ps with
  | nil => rfl
  | cons a ps ih =>
    cases a with
    | anyDepth => exact ⟨[], _, rfl, ih⟩
    | name n => exact ⟨_, _, rfl, Glob.spells_fill 'x' n.text, ih⟩

theorem length_namesFilled_le (ps : List Segment) : (namesFilled ps).length ≤ ps.length := by
  induction ps with
  | nil => exact Nat.le_refl 0
  | cons a ps ih =>
    cases a with
    | anyDepth => exact Nat.le_succ_of_le ih
    | name n => exact Nat.succ_le_succ ih

theorem length_namesFilled_lt (h : .anyDepth ∈ ps) : (namesFilled ps).length < ps.length := by
  induction ps with
  | nil => cases h
  | cons a ps ih =>
    cases a with
    | anyDepth => exact Nat.lt_succ_of_le (length_namesFilled_le ps)
    | name n => exact Nat.succ_lt_succ (ih ((List.mem_cons.mp h).resolve_left (by simp)))

theorem notMem_namesFilled {c : Char} (hc : c ∈ ['/', '\\']) :
    ∀ s ∈ namesFilled ps, c ∉ s := by
  induction ps with
  | nil =>
    intro s hs
    cases hs
  | cons a ps ih =>
    cases a with
    | anyDepth => exact ih
    | name n =>
      have hx : c ≠ 'x' := fun heq => absurd (heq ▸ hc) (by decide)
      refine List.forall_mem_cons.mpr ⟨notMem_fill hx fun hmem => n.plain c hmem ?_, ih⟩
      exact List.mem_append_left ['?', '['] hc

/-! ## Patterns without stars -/

theorem segMatch_plain_iff (h : ∀ a ∈ ps, '*' ∉ a.text) :
    SegMatch ps segs ↔ segs = ps.map Segment.text := by
  induction ps generalizing segs with
  | nil => rfl
  | cons a ps ih =>
    obtain ⟨ha, hps⟩ := List.forall_mem_cons.mp h
    cases a with
    | anyDepth => exact absurd List.mem_cons_self ha
    | name n =>
      have hn : ∀ s, n.Spells s ↔ s = n.text := by
        intro s
        have hlits : n.text.map Glob.plainToken = n.text.map .lit := Glob.map_plainToken ha
        rw [SegmentName.Spells, hlits, Glob.spells_text_iff]
      constructor
      · rintro ⟨s, rest, rfl, hs, hrest⟩
        rw [(hn s).mp hs, (ih hps).mp hrest]
        rfl
      · rintro rfl
        exact ⟨n.text, ps.map Segment.text, rfl, (hn n.text).mpr rfl, (ih hps).mpr rfl⟩

theorem text_subset_segmentsText (h : a ∈ ps) : a.text ⊆ segmentsText ps := by
  intro c hc
  have hps : ps ≠ [] := List.ne_nil_of_mem h
  refine segments_induction (P := fun ps => a ∈ ps → c ∈ segmentsText ps) hps (fun b h => ?_)
    (fun b b' ps ih h => ?_) h
  · rw [segmentsText_singleton, ← List.mem_singleton.mp h]
    exact hc
  · rw [segmentsText_cons]
    rcases List.mem_cons.mp h with rfl | h
    · exact List.mem_append_left _ hc
    · exact List.mem_append_right _ (List.mem_cons_of_mem '/' (ih h))

theorem oneMatches_plain_iff (hps : ps ≠ []) (h : '*' ∉ segmentsText ps) :
    OneMatches ps w ↔ w = segmentsText ps := by
  rw [oneMatches_names hps (anyDepth_notMem h), tokens, Glob.map_plainToken h,
    Glob.spells_text_iff]

theorem someMatches_names (hps : ps ≠ []) (h : .anyDepth ∉ ps) :
    SomeMatches ps w ↔ OneMatches ps w := by
  cases ps with
  | nil => exact absurd rfl hps
  | cons a ps =>
    cases a with
    | anyDepth => exact absurd List.mem_cons_self h
    | name n => exact someMatches_name

theorem someMatches_plain_iff (hps : ps ≠ []) (h : '*' ∉ segmentsText ps) :
    SomeMatches ps w ↔ SegMatch ps (w.splitOn '/') := by
  have hnames : ∀ a ∈ ps, '*' ∉ a.text := fun a ha hmem => h (text_subset_segmentsText ha hmem)
  rw [someMatches_names hps (anyDepth_notMem h), oneMatches_plain_iff hps h,
    segMatch_plain_iff hnames]
  constructor
  · rintro rfl
    exact splitOn_segmentsText hps
  · intro hsplit
    rw [segmentsText, ← hsplit, List.intercalate_splitOn]

/-! ## Patterns of stars alone -/

def starDirs : Nat → List Char
  | 0 => []
  | k + 1 => '*' :: '/' :: starDirs k

theorem mem_starDirs {c : Char} {k : Nat} (h : c ∈ starDirs k) : c = '*' ∨ c = '/' := by
  induction k with
  | zero => cases h
  | succ k ih =>
    rcases List.mem_cons.mp h with rfl | h
    · exact .inl rfl
    · rcases List.mem_cons.mp h with rfl | h
      · exact .inr rfl
      · exact ih h

theorem intercalate_stars (k : Nat) (t : List Char) :
    ['/'].intercalate (List.replicate k ['*'] ++ ['*' :: t]) = starDirs k ++ '*' :: t := by
  induction k with
  | zero => exact List.intercalate_singleton
  | succ k ih =>
    rw [List.replicate_succ, List.cons_append, List.intercalate_cons_of_ne_nil (by simp), ih]
    rfl

theorem map_text_stars_iff (hps : ps ≠ []) (ht : '/' ∉ t) (k : Nat) :
    ps.map Segment.text = List.replicate k ['*'] ++ ['*' :: t] ↔
      segmentsText ps = starDirs k ++ '*' :: t := by
  rw [← intercalate_stars]
  constructor
  · exact fun h => congrArg _ h
  · intro h
    rw [← splitOn_segmentsText hps, h]
    refine List.splitOn_intercalate '/' (fun l hl => ?_) (by simp)
    rcases List.mem_append.mp hl with hl | hl
    · rw [(List.mem_replicate.mp hl).2]
      decide
    · rw [List.mem_singleton.mp hl]
      exact List.not_mem_cons_of_ne_of_not_mem (by decide) ht

/-- Each name but the last takes any segment, the last one those that end in `t`. -/
theorem segMatch_stars {k : Nat} (ht : '*' ∉ t)
    (hps : ps.map Segment.text = List.replicate k ['*'] ++ ['*' :: t]) (hlen : segs.length = k)
    (hs : t <:+ s) : SegMatch ps (segs ++ [s]) := by
  induction k generalizing ps segs with
  | zero =>
    obtain rfl := List.eq_nil_of_length_eq_zero hlen
    obtain ⟨a, rest, rfl, htext, hrest⟩ := List.map_eq_cons_iff.mp hps
    obtain rfl := List.map_eq_nil_iff.mp hrest
    cases a with
    | anyDepth =>
      obtain rfl : ['*'] = t := (List.cons.inj htext).2
      exact absurd List.mem_cons_self ht
    | name n =>
      have htokens : n.text.map Glob.plainToken = .star :: t.map .lit := by
        rw [show n.text = '*' :: t from htext, List.map_cons, Glob.map_plainToken ht]
        rfl
      obtain ⟨pre, rfl⟩ := hs
      refine ⟨pre ++ t, [], rfl, ?_, rfl⟩
      rw [SegmentName.Spells, htokens]
      exact Glob.spells_star_iff.mpr ⟨pre, t, rfl, Glob.spells_text_iff.mpr rfl⟩
  | succ k ih =>
    obtain ⟨first, others, rfl⟩ := List.exists_cons_of_length_eq_add_one hlen
    obtain ⟨a, rest, rfl, htext, hrest⟩ := List.map_eq_cons_iff.mp hps
    have hothers := ih hrest (Nat.succ.inj hlen)
    cases a with
    | anyDepth => cases htext
    | name n =>
      refine ⟨first, others ++ [s], rfl, ?_, hothers⟩
      rw [SegmentName.Spells, show n.text = ['*'] from htext]
      exact Glob.spells_star_iff.mpr ⟨first, [], (List.append_nil first).symm, rfl⟩

/-- Apart from the placeholder, the items spell no more than the shell's stars. -/
theorem spells_of_itemsSpell (hs : '@' ∉ s) (h : ItemsSpell (scanItems s) w) :
    Glob.spells (s.map Glob.plainToken) w = true := by
  induction s generalizing w with
  | nil => cases h with
    | eps => rfl
  | cons c s ih =>
    have hpre : ¬ placeholder <+: c :: s := fun h => hs (h.subset (by decide))
    have hrest := fun {w} => ih (w := w) (fun hmem => hs (List.mem_cons_of_mem c hmem))
    rw [scanItems_cons hpre] at h
    rw [List.map_cons, Glob.plainToken]
    split at h <;> rename_i hc
    · obtain ⟨u, v, rfl, -, hv⟩ := itemsSpell_inSegment.mp h
      rw [if_pos hc]
      exact Glob.spells_star_iff.mpr ⟨u, v, rfl, hrest hv⟩
    · obtain ⟨v, rfl, hv⟩ := itemsSpell_lit.mp h
      rw [if_neg hc]
      exact Glob.spells_lit_iff.mpr ⟨v, rfl, hrest hv⟩

/-- A text without separators is at the end of the last piece. -/
theorem suffix_append_cons {sep : Char} (hsep : sep ∉ t) (s last : List Char) :
    t <:+ s ++ sep :: last ↔ t <:+ last := by
  rw [← List.reverse_prefix, ← List.reverse_prefix, List.reverse_append, List.reverse_cons,
    List.append_assoc]
  exact prefix_append_cons (by rwa [List.mem_reverse]) last.reverse s.reverse

theorem suffix_intercalate_concat {sep : Char} (hsep : sep ∉ t) (init : List (List Char))
    (h : t <:+ [sep].intercalate (init ++ [s])) : t <:+ s := by
  induction init with
  | nil => rwa [List.nil_append, List.intercalate_singleton] at h
  | cons piece init ih =>
    rw [List.cons_append, List.intercalate_cons_of_ne_nil (by simp), List.append_assoc] at h
    exact ih ((suffix_append_cons hsep piece _).mp h)

theorem intercalate_suffix (sep : List Char) (us : List (List Char)) (hne : segs ≠ []) :
    sep.intercalate segs <:+ sep.intercalate (us ++ segs) := by
  induction us with
  | nil => exact List.suffix_refl _
  | cons u us ih =>
    rw [List.cons_append, List.intercalate_cons_of_ne_nil (by simp [hne])]
    exact ih.trans (List.suffix_append _ _)

section
variable {k r : Nat}

/-- What `**/*/…/*` asks of a path. -/
def DeepEnough (k r : Nat) (w : List Char) : Prop :=
  k ≤ w.count '/' ∧ List.replicate r '\n' <:+ w

theorem DeepEnough.of_suffix (h : DeepEnough k r s) (hs : s <:+ w) : DeepEnough k r w :=
  ⟨h.1.trans (hs.sublist.count_le '/'), h.2.trans hs⟩

theorem DeepEnough.append_newline (h : DeepEnough k r s) : DeepEnough k r (s ++ ['\n']) := by
  refine ⟨(h.of_suffix (List.suffix_refl s)).1.trans ?_, ?_⟩
  · rw [List.count_append]
    exact Nat.le_add_right _ _
  · have hmore : List.replicate r '\n' <:+ List.replicate r '\n' ++ ['\n'] := by
      rw [← List.replicate_succ', List.replicate_succ]
      exact List.suffix_cons _ _
    obtain ⟨pre, rfl⟩ := h.2
    rw [List.append_assoc]
    exact hmore.trans (List.suffix_append _ _)

theorem notMem_newlines {c : Char} (hc : c ≠ '\n') (r : Nat) : c ∉ List.replicate r '\n' :=
  fun h => hc (List.mem_replicate.mp h).2

variable (hps : ps ≠ []) (h : segmentsText ps = starDirs k ++ '*' :: List.replicate r '\n')
include hps h

theorem map_text_of_stars :
    ps.map Segment.text = List.replicate k ['*'] ++ ['*' :: List.replicate r '\n'] :=
  (map_text_stars_iff hps (notMem_newlines (by decide) r) k).mpr h

theorem anyDepth_notMem_stars : .anyDepth ∉ ps := by
  intro hmem
  have htext := List.mem_map_of_mem (f := Segment.text) hmem
  rw [map_text_of_stars hps h, List.mem_append, List.mem_singleton] at htext
  rcases htext with htext | htext
  · cases (List.mem_replicate.mp htext).2
  · exact notMem_newlines (by decide) r ((List.cons.inj htext).2 ▸ List.mem_cons_self)

theorem length_of_stars : ps.length = k + 1 := by
  have hlen := congrArg List.length (map_text_of_stars hps h)
  rwa [List.length_map, List.length_append, List.length_replicate] at hlen

theorem deepEnough_of_spells (hw : Glob.spells (tokens ps) w = true) : DeepEnough k r w := by
  constructor
  · have hlen := length_le_of_spells hps hw
    rw [length_of_stars hps h] at hlen
    exact Nat.le_of_succ_le_succ hlen
  · rw [tokens_of_text h (notMem_newlines (by decide) r)] at hw
    exact Glob.suffix_of_spells hw

theorem deepEnough_of_itemsSpell (hw : ItemsSpell (patternItems (.anyDepth :: ps)) w) :
    DeepEnough k r w := by
  have hat : '@' ∉ segmentsText ps := by
    rw [h]
    intro hmem
    rcases List.mem_append.mp hmem with hmem | hmem
    · rcases mem_starDirs hmem with heq | heq
      · cases heq
      · cases heq
    · rcases List.mem_cons.mp hmem with heq | hmem
      · cases heq
      · exact notMem_newlines (by decide) r hmem
  have hitems : patternItems ps = scanItems (segmentsText ps) := by
    rw [patternItems_eq hps, replaceText_of_not_infix fun hstars =>
      anyDepth_notMem_stars hps h ((doubleStar_infix_iff hps).mp hstars)]
  obtain ⟨b, rest, rfl⟩ := List.exists_cons_of_ne_nil hps
  rw [patternItems_cons, itemsSpell_append] at hw
  obtain ⟨u, v', rfl, -, hv⟩ := hw
  obtain ⟨v, rfl, hrest⟩ := itemsSpell_lit.mp hv
  rw [hitems] at hrest
  have hspells := spells_of_itemsSpell hat hrest
  exact (deepEnough_of_spells hps h hspells).of_suffix
    ((List.suffix_cons '/' v).trans (List.suffix_append u _))

theorem deepEnough_of_someMatches (hw : SomeMatches (.anyDepth :: ps) w) :
    DeepEnough k r w := by
  have hno := anyDepth_notMem_stars hps h
  have hor : OneMatches (.anyDepth :: ps) w ∨ OneMatches ps w := by
    obtain ⟨b, rest, rfl⟩ := List.exists_cons_of_ne_nil hps
    exact someMatches_anyDepth.mp hw
  rcases hor with hw | hw
  · rw [oneMatches_anyDepth (List.cons_ne_nil _ _) List.mem_cons_self, matchesItems_iff] at hw
    rcases hw with hw | ⟨v, rfl, hv⟩
    · exact deepEnough_of_itemsSpell hps h hw
    · exact (deepEnough_of_itemsSpell hps h hv).append_newline
  · exact deepEnough_of_spells hps h ((oneMatches_names hps hno).mp hw)

theorem segMatch_of_deepEnough (hw : DeepEnough k r w) :
    SegMatch (.anyDepth :: ps) (w.splitOn '/') := by
  have hlen : k + 1 ≤ (w.splitOn '/').length := by
    rw [length_splitOn]
    exact Nat.succ_le_succ hw.1
  obtain ⟨u, v, hsplit, hv⟩ : ∃ u v, w.splitOn '/' = u ++ v ∧ v.length = k + 1 := by
    refine ⟨_, _, (List.take_append_drop ((w.splitOn '/').length - (k + 1)) _).symm, ?_⟩
    rw [List.length_drop]
    omega
  refine ⟨u, v, hsplit, ?_⟩
  obtain ⟨init, last, rfl⟩ := List.eq_nil_or_concat v |>.resolve_left
    (List.ne_nil_of_length_eq_add_one hv)
  rw [List.concat_eq_append] at hsplit hv ⊢
  have hjoin : w = ['/'].intercalate (u ++ init ++ [last]) := by
    rw [List.append_assoc, ← hsplit, List.intercalate_splitOn]
  have hlast : List.replicate r '\n' <:+ last :=
    suffix_intercalate_concat (notMem_newlines (by decide) r) (u ++ init) (hjoin ▸ hw.2)
  exact segMatch_stars (notMem_newlines (by decide) r) (map_text_of_stars hps h)
    (by rw [List.length_append] at hv; exact Nat.succ.inj hv) hlast

theorem someMatches_of_segMatch (hw : SegMatch (.anyDepth :: ps) (w.splitOn '/')) :
    SomeMatches (.anyDepth :: ps) w := by
  have hno := anyDepth_notMem_stars hps h
  obtain ⟨u, v, hsplit, hv⟩ := hw
  have hne : v ≠ [] := List.ne_nil_of_length_pos
    (by rw [length_of_segMatch hno hv, length_of_stars hps h]; exact Nat.succ_pos k)
  have hspells := spells_of_segMatch hps hno hv
  obtain ⟨ts, hts⟩ : ∃ ts, tokens ps = .star :: ts := by
    rw [tokens, h]
    cases k with
    | zero => exact ⟨_, rfl⟩
    | succ k => exact ⟨_, rfl⟩
  obtain ⟨pre, hpre⟩ := intercalate_suffix ['/'] u hne
  rw [← hsplit, List.intercalate_splitOn] at hpre
  have hone : OneMatches ps w := by
    rw [oneMatches_names hps hno, ← hpre, hts]
    exact Glob.spells_star_append pre (hts ▸ hspells)
  obtain ⟨b, rest, rfl⟩ := List.exists_cons_of_ne_nil hps
  exact someMatches_anyDepth.mpr (.inr hone)

end

end

end SpineFormal.Verify
