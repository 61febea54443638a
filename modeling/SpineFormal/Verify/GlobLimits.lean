import SpineFormal.Verify.GlobExact

/-!
# The patterns that the function reads segment by segment

Of the patterns with a star only `**/*`, `**/*/*` and so on are among them.
-/

namespace SpineFormal.Verify

open Re
set_option autoImplicit false

section
variable {a b : Segment} {n : SegmentName} {ps : List Segment} {s t w : List Char}
  {segs : List (List Char)} {x : Char}

/-! ## Names alone -/

theorem backslash_notMem_fill (hps : ps ≠ []) (hs : s ⊆ segmentsText ps) (hx : x ≠ '\\') :
    '\\' ∉ fill x s :=
  notMem_fill (Ne.symm hx) fun h => segmentsText_plain hps _ (hs h) (by decide)

/-- A star takes a slash, which adds a segment to the path. -/
theorem no_star_of_names (hps : ps ≠ []) (hno : .anyDepth ∉ ps)
    (hhead : (segmentsText ps).head? ≠ some '/') (h : Agrees ps) : '*' ∉ segmentsText ps := by
  intro hstar
  obtain ⟨pre, post, htext⟩ := List.append_of_mem hstar
  have hcount := count_segmentsText hps
  rw [htext] at hhead
  have hpath : '\\' ∉ fill 'x' pre ++ 'x' :: '/' :: fill 'x' post := by
    simp only [List.mem_append, List.mem_cons, not_or]
    exact ⟨backslash_notMem_fill hps (htext ▸ List.subset_append_left _ _) (by decide), by decide,
      by decide, backslash_notMem_fill hps (htext ▸ fun c hc => by simp [hc]) (by decide)⟩
  have hrel : (fill 'x' pre ++ 'x' :: '/' :: fill 'x' post).head? ≠ some '/' := by
    cases pre with
    | nil => exact fun heq => absurd (Option.some.inj heq) (by decide)
    | cons c pre => exact head_fill (s := c :: pre) (by decide) hhead
  have hmatch : OneMatches ps (fill 'x' pre ++ 'x' :: '/' :: fill 'x' post) := by
    rw [oneMatches_names hps hno, tokens, htext, List.map_append, List.map_cons]
    exact Glob.spells_append.mpr ⟨_, _, rfl, Glob.spells_fill 'x' pre,
      Glob.spells_star_iff.mpr ⟨['x', '/'], _, rfl, Glob.spells_fill 'x' post⟩⟩
  have hseg := (h _ hpath hrel).mp ((someMatches_names hps hno).mpr hmatch)
  have hlen := length_of_segMatch hno hseg
  rw [length_splitOn, List.count_append, count_fill (by decide),
    List.count_cons_of_ne (by decide), List.count_cons_self, count_fill (by decide)] at hlen
  rw [htext, List.count_append, List.count_cons_of_ne (by decide)] at hcount
  omega

/-! ## A path too short for the items -/

theorem count_intercalate (hno : ∀ s ∈ segs, '/' ∉ s) (hne : segs ≠ []) :
    (['/'].intercalate segs).count '/' + 1 = segs.length := by
  rw [← length_splitOn, List.splitOn_intercalate '/' hno hne]

theorem not_oneMatches_of_short (hmem : .anyDepth ∈ ps) (hno : ∀ s ∈ segs, '/' ∉ s)
    (hne : segs ≠ []) (hlen : segs.length < ps.length) :
    ¬ OneMatches ps (['/'].intercalate segs) := by
  intro h
  have hle := length_le_of_oneMatches (List.ne_nil_of_mem hmem) hmem h
  rw [count_intercalate hno hne] at hle
  exact absurd hle (Nat.not_le.mpr hlen)

theorem notMem_intercalate {c : Char} (hc : c ≠ '/') (h : ∀ s ∈ segs, c ∉ s) :
    c ∉ ['/'].intercalate segs := by
  induction segs with
  | nil => exact List.not_mem_nil
  | cons s segs ih =>
    obtain ⟨hs, hsegs⟩ := List.forall_mem_cons.mp h
    cases segs with
    | nil => rwa [List.intercalate_singleton]
    | cons s' segs =>
      rw [List.intercalate_cons_of_ne_nil (List.cons_ne_nil s' segs)]
      simp only [List.mem_append, List.mem_singleton, not_or]
      exact ⟨⟨hs, hc⟩, ih hsegs⟩

theorem head_intercalate_fill (hn : n.text ≠ []) (segs : List (List Char)) :
    (['/'].intercalate (fill 'x' n.text :: segs)).head? ≠ some '/' := by
  obtain ⟨c, rest, hcons⟩ := List.exists_cons_of_ne_nil hn
  have hc : (fill 'x' n.text).head? ≠ some '/' := by
    refine head_fill (by decide) (hcons ▸ fun heq => ?_)
    exact n.plain c (hcons ▸ List.mem_cons_self) (Option.some.inj heq ▸ List.mem_cons_self)
  have hfill : ∃ d rest', fill 'x' n.text = d :: rest' := ⟨_, _, by rw [hcons]; rfl⟩
  obtain ⟨d, rest', hd⟩ := hfill
  rw [hd] at hc ⊢
  cases segs with
  | nil => rwa [List.intercalate_singleton]
  | cons s segs => rwa [List.intercalate_cons_of_ne_nil (List.cons_ne_nil s segs)]

/-- Left out, the depths give a path that the items are too long for. -/
theorem not_agrees_of_short (hne : namesFilled ps ≠ [])
    (hhead : (['/'].intercalate (namesFilled ps)).head? ≠ some '/')
    (hno : ¬ SomeMatches ps (['/'].intercalate (namesFilled ps))) : ¬ Agrees ps := by
  intro h
  have hslash : ∀ s ∈ namesFilled ps, '/' ∉ s := notMem_namesFilled (by decide)
  have hback : ∀ s ∈ namesFilled ps, '\\' ∉ s := notMem_namesFilled (by decide)
  refine hno ((h _ (notMem_intercalate (by decide) hback) hhead).mpr ?_)
  rw [List.splitOn_intercalate '/' hslash hne]
  exact segMatch_namesFilled ps

theorem not_agrees_of_name (hmem : .anyDepth ∈ ps) (hn : n.text ≠ []) :
    ¬ Agrees (.name n :: ps) := by
  have hmem' : .anyDepth ∈ Segment.name n :: ps := List.mem_cons_of_mem _ hmem
  refine not_agrees_of_short (List.cons_ne_nil _ _) (head_intercalate_fill hn _) ?_
  rw [someMatches_name]
  exact not_oneMatches_of_short hmem' (notMem_namesFilled (by decide)) (List.cons_ne_nil _ _)
    (length_namesFilled_lt hmem')

theorem not_agrees_of_anyDepth_name (hmem : .anyDepth ∈ ps) (hn : n.text ≠ []) :
    ¬ Agrees (.anyDepth :: .name n :: ps) := by
  have hlt : (namesFilled ps).length < ps.length := length_namesFilled_lt hmem
  have hslash : ∀ s ∈ namesFilled (.name n :: ps), '/' ∉ s := notMem_namesFilled (by decide)
  refine not_agrees_of_short (List.cons_ne_nil _ _) (head_intercalate_fill hn _) ?_
  rw [someMatches_anyDepth, not_or]
  constructor
  · exact not_oneMatches_of_short List.mem_cons_self hslash (List.cons_ne_nil _ _)
      (Nat.lt_succ_of_lt (Nat.succ_lt_succ hlt))
  · exact not_oneMatches_of_short (List.mem_cons_of_mem _ hmem) hslash (List.cons_ne_nil _ _)
      (Nat.succ_lt_succ hlt)

/-! ## A path that begins with a newline in its first segment -/

def newlinePath (ps : List Segment) : List Char :=
  ['/'].intercalate (['x', '\n', 'x'] :: namesFilled ps)

theorem newlinePath_eq (ps : List Segment) : ∃ rest, newlinePath ps = 'x' :: '\n' :: 'x' :: rest ∧
    (namesFilled ps = [] → rest = []) := by
  rw [newlinePath]
  cases hsegs : namesFilled ps with
  | nil => exact ⟨[], List.intercalate_singleton, fun _ => rfl⟩
  | cons s segs =>
    rw [List.intercalate_cons_of_ne_nil (List.cons_ne_nil s segs)]
    exact ⟨_, rfl, fun h => absurd h (List.cons_ne_nil s segs)⟩

theorem splitOn_newlinePath (ps : List Segment) :
    (newlinePath ps).splitOn '/' = ['x', '\n', 'x'] :: namesFilled ps :=
  List.splitOn_intercalate '/'
    (List.forall_mem_cons.mpr ⟨by decide, notMem_namesFilled (by decide)⟩) (List.cons_ne_nil _ _)

theorem someMatches_newlinePath (h : Agrees (.anyDepth :: ps)) :
    SomeMatches (.anyDepth :: ps) (newlinePath ps) := by
  have hback : '\\' ∉ newlinePath ps := notMem_intercalate (by decide)
    (List.forall_mem_cons.mpr ⟨by decide, notMem_namesFilled (by decide)⟩)
  obtain ⟨rest, heq, -⟩ := newlinePath_eq ps
  have hhead : (newlinePath ps).head? ≠ some '/' := by
    rw [heq]
    exact fun h => absurd (Option.some.inj h) (by decide)
  refine (h _ hback hhead).mpr ?_
  rw [splitOn_newlinePath]
  exact ⟨[['x', '\n', 'x']], namesFilled ps, rfl, segMatch_namesFilled ps⟩

/-- The dots stop at the newline, before any slash. -/
theorem not_oneMatches_newline (hw : w = 'x' :: '\n' :: t) :
    ¬ OneMatches (.anyDepth :: b :: ps) w := by
  have hitems : ∀ v tail, ItemsSpell (patternItems (.anyDepth :: b :: ps)) v →
      'x' :: '\n' :: t = v ++ tail → False := by
    intro v tail hv heq
    rw [patternItems_cons] at hv
    obtain ⟨u, v', rfl, hu, hrest⟩ := itemsSpell_dots.mp hv
    obtain ⟨v', rfl, -⟩ := itemsSpell_lit.mp hrest
    rw [List.append_assoc, List.cons_append] at heq
    cases u with
    | nil => cases (List.cons.inj heq).1
    | cons c u =>
      have hrest := (List.cons.inj heq).2
      cases u with
      | nil => cases (List.cons.inj hrest).1
      | cons d u => exact hu ((List.cons.inj hrest).1 ▸ List.mem_cons_of_mem c List.mem_cons_self)
  rw [oneMatches_anyDepth (List.cons_ne_nil _ _) List.mem_cons_self, matchesItems_iff, hw]
  rintro (h | ⟨v, hv, h⟩)
  · exact hitems _ [] h (List.append_nil _).symm
  · exact hitems v ['\n'] h hv

theorem not_oneMatches_anyDepth_newline : ¬ OneMatches [.anyDepth] ['x', '\n', 'x'] := by
  have hdots : ∀ v, ItemsSpell [.dots] v → '\n' ∉ v := by
    intro v hv
    obtain ⟨u, v', rfl, hu, hrest⟩ := itemsSpell_dots.mp hv
    cases hrest with
    | eps => rwa [List.append_nil]
  rw [oneMatches_anyDepth (List.cons_ne_nil _ _) List.mem_cons_self, matchesItems_iff,
    patternItems_singleton]
  rintro (h | ⟨v, hv, -⟩)
  · exact hdots _ h (by decide)
  · have hlast := congrArg List.getLast? hv
    rw [List.getLast?_concat] at hlast
    exact absurd hlast (by decide)

theorem oneMatches_newlinePath (h : Agrees (.anyDepth :: ps)) :
    ∃ n rest, ps = .name n :: rest ∧ OneMatches ps (newlinePath ps) := by
  have hmatch := someMatches_newlinePath h
  obtain ⟨t, heq, hnil⟩ := newlinePath_eq ps
  cases ps with
  | nil =>
    rw [heq, hnil rfl] at hmatch
    exact absurd (someMatches_singleton.mp hmatch) not_oneMatches_anyDepth_newline
  | cons a rest =>
    have hsecond := (someMatches_anyDepth.mp hmatch).resolve_left (not_oneMatches_newline heq)
    cases a with
    | name n => exact ⟨n, rest, rfl, hsecond⟩
    | anyDepth =>
      cases rest with
      | nil =>
        rw [heq, hnil rfl] at hsecond
        exact absurd hsecond not_oneMatches_anyDepth_newline
      | cons b rest => exact absurd hsecond (not_oneMatches_newline heq)

/-! ## The stars of the names -/

/-- What takes any one character and no two is a star. -/
theorem star_of_spells (h : ∀ x ∈ ['x', 'y'], Glob.spells (s.map Glob.plainToken) [x] = true)
    (hapart : ¬ ['*', '*'] <:+: s) : s = ['*'] := by
  have hstar : ∀ c ∈ s, c = '*' := by
    intro c hc
    by_contra hne
    have hlit : Glob.Token.lit c ∈ s.map Glob.plainToken :=
      List.mem_map.mpr ⟨c, hc, if_neg hne⟩
    have hx := List.mem_singleton.mp (Glob.mem_of_spells hlit (h 'x' (by decide)))
    have hy := List.mem_singleton.mp (Glob.mem_of_spells hlit (h 'y' (by decide)))
    exact absurd (hx.symm.trans hy) (by decide)
  cases s with
  | nil => cases h 'x' (by decide)
  | cons c s =>
    obtain ⟨rfl, hs⟩ := List.forall_mem_cons.mp hstar
    cases s with
    | nil => rfl
    | cons d s =>
      obtain ⟨rfl, -⟩ := List.forall_mem_cons.mp hs
      exact absurd (List.prefix_append ['*', '*'] s).isInfix hapart

theorem eq_nil_of_spells {pre post : List Char} (htext : n.text = pre ++ '*' :: post)
    (hpost : '*' ∉ post) (h : ∀ x ∈ ['x', 'y'], n.Spells (x :: post)) : pre = [] := by
  have hspells : ∀ x ∈ ['x', 'y'],
      Glob.spells ((pre ++ ['*']).map Glob.plainToken) [x] = true := by
    intro x hx
    have htokens : n.text.map Glob.plainToken =
        (pre ++ ['*']).map Glob.plainToken ++ post.map .lit := by
      rw [htext, ← Glob.map_plainToken hpost, ← List.map_append, List.append_assoc]
      rfl
    have hn := h x hx
    rw [SegmentName.Spells, htokens] at hn
    exact Glob.spells_append_text (s := [x]) hn
  have hinfix : pre ++ ['*'] <:+: n.text := ⟨[], post, by rw [htext]; simp⟩
  have hone := star_of_spells hspells fun h => n.apart (h.trans hinfix)
  exact List.append_cancel_right (hone.trans (List.nil_append ['*']).symm)

def pieces (x : Char) : Nat → List Char
  | 0 => [x]
  | k + 1 => x :: '/' :: pieces x k

theorem count_pieces (hx : x ≠ '/') (k : Nat) : (pieces x k).count '/' = k := by
  induction k with
  | zero => exact List.count_eq_zero_of_not_mem fun h => hx (List.mem_singleton.mp h).symm
  | succ k ih => rw [pieces, List.count_cons_of_ne hx, List.count_cons_self, ih]

/-- Names that take one character at each place before the last star are stars. -/
theorem starDirs_of_segMatch {pre post : List Char} (hps : ps ≠ []) (hno : .anyDepth ∉ ps)
    (htext : segmentsText ps = pre ++ '*' :: post) (hpost : '*' ∉ post)
    (h : ∀ x ∈ ['x', 'y'], SegMatch ps ((pieces x (pre.count '/') ++ post).splitOn '/')) :
    pre = starDirs (pre.count '/') := by
  have hsep : ∀ x ∈ ['x', 'y'], '/' ≠ x := Numerals.forall_mem_of_all (by decide)
  refine segments_induction (P := fun ps => ∀ pre, .anyDepth ∉ ps →
    segmentsText ps = pre ++ '*' :: post →
    (∀ x ∈ ['x', 'y'], SegMatch ps ((pieces x (pre.count '/') ++ post).splitOn '/')) →
    pre = starDirs (pre.count '/')) hps (fun a pre hno htext h => ?_)
    (fun a b ps ih pre hno htext h => ?_) pre hno htext h
  · cases a with
    | anyDepth => exact absurd List.mem_cons_self hno
    | name n =>
      rw [segmentsText_singleton] at htext
      have hslash : '/' ∉ pre ++ '*' :: post := htext ▸ slash_notMem_text (.name n)
      have hcount : pre.count '/' = 0 :=
        List.count_eq_zero_of_not_mem fun h => hslash (List.mem_append_left _ h)
      rw [hcount] at h ⊢
      refine eq_nil_of_spells htext hpost fun x hx => ?_
      have hpiece : '/' ∉ x :: post := List.not_mem_cons_of_ne_of_not_mem
        (hsep x hx) fun h => hslash (by simp [h])
      have hm : SegMatch [.name n] ((x :: post).splitOn '/') := h x hx
      rw [List.splitOn_eq_singleton hpiece] at hm
      obtain ⟨s, rest, hs, hn, -⟩ := hm
      rwa [(List.cons.inj hs).1]
  · obtain ⟨ha, hrest⟩ := List.ne_and_not_mem_of_not_mem_cons hno
    cases a with
    | anyDepth => exact absurd rfl ha
    | name n =>
      rw [segmentsText_cons] at htext
      rcases List.append_eq_append_iff.mp htext with ⟨pre', rfl, htail⟩ | ⟨post', hn, htail⟩
      · -- The last star is in a later segment.
        cases pre' with
        | nil => cases (List.cons.inj htail).1
        | cons c pre' =>
          obtain ⟨rfl, hlater⟩ := List.cons.inj htail
          have hcount : (Segment.name n).text.count '/' = 0 :=
            List.count_eq_zero_of_not_mem (slash_notMem_text _)
          rw [List.count_append, hcount, Nat.zero_add, List.count_cons_self] at h ⊢
          have hsplit : ∀ x ∈ ['x', 'y'],
              (pieces x (pre'.count '/' + 1) ++ post).splitOn '/' =
                [x] :: (pieces x (pre'.count '/') ++ post).splitOn '/' := by
            intro x hx
            have hx' : '/' ∉ [x] := List.not_mem_cons_of_ne_of_not_mem (hsep x hx) List.not_mem_nil
            exact List.splitOn_append_cons_self_of_not_mem hx' _
          have hparts : ∀ x ∈ ['x', 'y'], n.Spells [x] ∧
              SegMatch (b :: ps) ((pieces x (pre'.count '/') ++ post).splitOn '/') := by
            intro x hx
            have hm := h x hx
            rw [hsplit x hx] at hm
            obtain ⟨s, rest, hs, hn, hm⟩ := hm
            obtain ⟨rfl, rfl⟩ := List.cons.inj hs
            exact ⟨hn, hm⟩
          have hstar : n.text = ['*'] := star_of_spells (fun x hx => (hparts x hx).1) n.apart
          have htext' : (Segment.name n).text = ['*'] := hstar
          rw [htext', starDirs, ← ih pre' hrest hlater fun x hx => (hparts x hx).2]
          rfl
      · -- The last star is in this one.
        cases post' with
        | nil => cases (List.cons.inj htail).1
        | cons c post' =>
          obtain ⟨rfl, rfl⟩ := List.cons.inj htail
          have hslash : '/' ∉ pre ++ '*' :: post' := hn ▸ slash_notMem_text (.name n)
          have hcount : pre.count '/' = 0 :=
            List.count_eq_zero_of_not_mem fun h => hslash (List.mem_append_left _ h)
          rw [hcount] at h ⊢
          refine eq_nil_of_spells hn (fun h => hpost (List.mem_append_left _ h)) fun x hx => ?_
          have hpiece : '/' ∉ x :: post' := List.not_mem_cons_of_ne_of_not_mem
            (hsep x hx) fun h => hslash (by simp [h])
          have hm : SegMatch (.name n :: b :: ps)
            ((x :: post' ++ '/' :: segmentsText (b :: ps)).splitOn '/') := h x hx
          rw [List.splitOn_append_cons_self_of_not_mem hpiece] at hm
          obtain ⟨s, rest, hs, hn, -⟩ := hm
          rwa [(List.cons.inj hs).1]

/-- The last star can take all but the end of the path, from any depth on. -/
theorem segMatch_pieces {pre post : List Char} (hps : ps ≠ []) (hno : .anyDepth ∉ ps)
    (htext : segmentsText ps = pre ++ '*' :: post) (hpost : '*' ∉ post) (hpre : pre ≠ [])
    (hrel : (segmentsText ps).head? ≠ some '/') (h : Agrees (.anyDepth :: ps)) (hx : x ≠ '/')
    (hx' : x ≠ '\\') : SegMatch ps ((pieces x (pre.count '/') ++ post).splitOn '/') := by
  have hback : '\\' ∉ segmentsText ps := fun hmem => segmentsText_plain hps _ hmem (by decide)
  have hpieces : ∀ k, '\\' ∉ pieces x k := by
    intro k
    induction k with
    | zero => exact fun hmem => hx' (List.mem_singleton.mp hmem).symm
    | succ k ih =>
      simp only [pieces, List.mem_cons, not_or]
      exact ⟨Ne.symm hx', by decide, ih⟩
  have hpath : '\\' ∉ fill x pre ++ '/' :: (pieces x (pre.count '/') ++ post) := by
    rw [htext, List.mem_append, not_or] at hback
    rw [List.mem_append, List.mem_cons, List.mem_append, not_or, not_or, not_or]
    exact ⟨notMem_fill (Ne.symm hx') hback.1, by decide, hpieces _,
      fun hmem => hback.2 (List.mem_cons_of_mem '*' hmem)⟩
  have hhead : (fill x pre ++ '/' :: (pieces x (pre.count '/') ++ post)).head? ≠ some '/' := by
    rw [htext] at hrel
    obtain ⟨c, rest, rfl⟩ := List.exists_cons_of_ne_nil hpre
    exact head_fill (s := c :: rest) (Ne.symm hx) hrel
  have hmatch : OneMatches ps (fill x pre ++ '/' :: (pieces x (pre.count '/') ++ post)) := by
    rw [oneMatches_names hps hno, tokens_of_text htext hpost, List.append_assoc]
    exact Glob.spells_append.mpr ⟨_, _, rfl, Glob.spells_fill x pre,
      Glob.spells_star_iff.mpr ⟨'/' :: pieces x (pre.count '/'), post, rfl,
        Glob.spells_text_iff.mpr rfl⟩⟩
  have hsome : SomeMatches (.anyDepth :: ps)
      (fill x pre ++ '/' :: (pieces x (pre.count '/') ++ post)) := by
    obtain ⟨b, rest, rfl⟩ := List.exists_cons_of_ne_nil hps
    exact someMatches_anyDepth.mpr (.inr hmatch)
  obtain ⟨u, v, hsplit, hv⟩ := (h _ hpath hhead).mp hsome
  have hcount := count_segmentsText hps
  rw [htext, List.count_append, List.count_cons_of_ne (by decide)] at hcount
  have hlen : ((pieces x (pre.count '/') ++ post).splitOn '/').length = v.length := by
    rw [length_of_segMatch hno hv, length_splitOn, List.count_append, count_pieces hx, hcount]
  rw [List.splitOn_append_cons_self] at hsplit
  rwa [(List.append_inj' hsplit hlen).2]

theorem eq_of_cons_eq_append {c d : Char} (h : c :: s = s ++ [d]) : ∀ e ∈ c :: s, e = d := by
  induction s generalizing c with
  | nil =>
    intro e he
    rw [List.mem_singleton.mp he, (List.cons.inj h).1]
  | cons p s ih =>
    obtain ⟨rfl, hrest⟩ := List.cons.inj h
    have hall := ih hrest
    exact List.forall_mem_cons.mpr ⟨hall c List.mem_cons_self, hall⟩

theorem all_newlines {post : List Char} (h : post <:+ s ++ post ++ ['\n']) :
    ∀ c ∈ post, c = '\n' := by
  have hshort : post <:+ post ++ ['\n'] := by
    rw [List.append_assoc] at h
    refine List.suffix_of_suffix_length_le h (List.suffix_append s _) ?_
    rw [List.length_append]
    exact Nat.le_add_right _ _
  obtain ⟨pre, hpre⟩ := hshort
  have hlen := congrArg List.length hpre
  rw [List.length_append, List.length_append, Nat.add_comm] at hlen
  obtain ⟨c, rfl⟩ := List.length_eq_one_iff.mp (Nat.add_left_cancel hlen)
  exact fun e he => eq_of_cons_eq_append hpre e (List.mem_cons_of_mem c he)

/-- The dollar sign lets a newline stand after what the pattern ends with. -/
theorem newlines_of_agrees {pre post : List Char} (hps : ps ≠ []) (hno : .anyDepth ∉ ps)
    (htext : segmentsText ps = pre ++ '*' :: post) (hpost : '*' ∉ post)
    (h : Agrees (.anyDepth :: ps)) : ∀ c ∈ post, c = '\n' := by
  have hne : Segment.anyDepth :: ps ≠ [] := List.cons_ne_nil _ _
  have hfill : fill 'x' (segmentsText (.anyDepth :: ps)) =
      ['x', 'x', '/'] ++ fill 'x' (pre ++ ['*']) ++ post := by
    have hpost' : fill 'x' post = post :=
      (List.map_congr_left fun c hc => if_neg fun heq : c = '*' => hpost (heq ▸ hc)).trans
        (List.map_id post)
    obtain ⟨b, rest, rfl⟩ := List.exists_cons_of_ne_nil hps
    rw [segmentsText_cons, htext]
    nth_rewrite 2 [← hpost']
    simp [fill, Segment.text]
  have hpath : '\\' ∉ fill 'x' (segmentsText (.anyDepth :: ps)) ++ ['\n'] := by
    rw [List.mem_append, not_or]
    exact ⟨backslash_notMem_fill hne (List.Subset.refl _) (by decide), by decide⟩
  have hhead : (fill 'x' (segmentsText (.anyDepth :: ps)) ++ ['\n']).head? ≠ some '/' := by
    rw [hfill]
    exact fun heq => absurd (Option.some.inj heq) (by decide)
  have hmatch : OneMatches (.anyDepth :: ps)
      (fill 'x' (segmentsText (.anyDepth :: ps)) ++ ['\n']) := by
    rw [oneMatches_anyDepth hne List.mem_cons_self, matchesItems_iff]
    exact .inr ⟨_, rfl, itemsSpell_fill (by decide) (by decide) hne⟩
  have hsome : SomeMatches (.anyDepth :: ps)
      (fill 'x' (segmentsText (.anyDepth :: ps)) ++ ['\n']) := by
    obtain ⟨b, rest, rfl⟩ := List.exists_cons_of_ne_nil hps
    exact someMatches_anyDepth.mpr (.inl hmatch)
  obtain ⟨u, v, hsplit, hv⟩ := (h _ hpath hhead).mp hsome
  have hvne : v ≠ [] := by
    refine List.ne_nil_of_length_pos ?_
    rw [length_of_segMatch hno hv]
    exact List.length_pos_iff.mpr hps
  have hend := intercalate_suffix ['/'] u hvne
  rw [← hsplit, List.intercalate_splitOn, hfill] at hend
  have hspells := spells_of_segMatch hps hno hv
  rw [tokens_of_text htext hpost] at hspells
  exact all_newlines ((Glob.suffix_of_spells hspells).trans hend)

/-! ## The exact condition -/

theorem relative_of_agrees (h : Agrees (.anyDepth :: ps)) :
    ps ≠ [] ∧ .anyDepth ∉ ps ∧ '*' ∈ segmentsText ps ∧ (segmentsText ps).head? ≠ some '/' := by
  obtain ⟨n, rest, rfl, hmatch⟩ := oneMatches_newlinePath h
  obtain ⟨t, hpath, -⟩ := newlinePath_eq (.name n :: rest)
  have hps : Segment.name n :: rest ≠ [] := List.cons_ne_nil _ _
  have hno : .anyDepth ∉ Segment.name n :: rest := by
    intro hmem
    have hrest : .anyDepth ∈ rest := (List.mem_cons.mp hmem).resolve_left (by simp)
    by_cases hn : n.text = []
    · obtain ⟨b, rest, rfl⟩ := List.exists_cons_of_ne_nil (List.ne_nil_of_mem hrest)
      have hitems : (Segment.name n).items = [] := by
        rw [Segment.items, hn]
        rfl
      rw [oneMatches_anyDepth hps hmem, matchesItems_iff, patternItems_cons, hitems,
        hpath] at hmatch
      rcases hmatch with hitem | ⟨v, hv, hitem⟩
      · obtain ⟨v, hv, -⟩ := itemsSpell_lit.mp hitem
        cases (List.cons.inj hv).1
      · obtain ⟨v, rfl, -⟩ := itemsSpell_lit.mp hitem
        cases (List.cons.inj hv).1
    · exact not_agrees_of_anyDepth_name hrest hn h
  refine ⟨hps, hno, ?_, ?_⟩
  · by_contra hstar
    have hsplit := splitOn_newlinePath (.name n :: rest)
    rw [(oneMatches_plain_iff hps hstar).mp hmatch, splitOn_segmentsText hps] at hsplit
    have hlen := congrArg List.length hsplit
    have hnames := length_of_segMatch hno (segMatch_namesFilled (.name n :: rest))
    simp only [List.length_map, List.length_cons] at hlen hnames
    omega
  · intro hhead
    obtain ⟨tail, htext⟩ := List.head?_eq_some_iff.mp hhead
    rw [oneMatches_names hps hno, tokens, htext, hpath] at hmatch
    obtain ⟨v, hv, -⟩ := Glob.spells_lit_iff.mp hmatch
    cases (List.cons.inj hv).1

theorem stars_of_agrees (h : Agrees (.anyDepth :: ps)) :
    ∃ k r, segmentsText ps = starDirs k ++ '*' :: List.replicate r '\n' := by
  obtain ⟨hps, hno, hstar, hhead⟩ := relative_of_agrees h
  obtain ⟨pre, post, htext, hpost⟩ : ∃ pre post, segmentsText ps = pre ++ '*' :: post ∧
      '*' ∉ post := by
    obtain ⟨front, back, hrev, hfront⟩ := List.eq_append_cons_of_mem (List.mem_reverse.mpr hstar)
    refine ⟨back.reverse, front.reverse, ?_, by rwa [List.mem_reverse]⟩
    rw [← List.reverse_reverse (segmentsText ps), hrev]
    simp
  have hpre : pre = starDirs (pre.count '/') := by
    by_cases hne : pre = []
    · rw [hne]
      rfl
    · refine starDirs_of_segMatch hps hno htext hpost fun x hx => ?_
      have hx' : x ≠ '/' ∧ x ≠ '\\' := by
        rcases List.mem_cons.mp hx with rfl | hx
        · decide
        · rw [List.mem_singleton.mp hx]
          decide
      exact segMatch_pieces hps hno htext hpost hne hhead h hx'.1 hx'.2
  refine ⟨pre.count '/', post.length, ?_⟩
  rw [← hpre, htext, ← List.eq_replicate_of_mem (newlines_of_agrees hps hno htext hpost h)]

end

def src : SegmentName := ⟨"src".toList, Numerals.forall_mem_of_all (by decide), by decide⟩

def aPy : SegmentName := ⟨"a.py".toList, Numerals.forall_mem_of_all (by decide), by decide⟩

def srcAnyDepth : GlobPattern where
  segments := [.name src, .anyDepth, .name aPy]
  nonempty := List.cons_ne_nil _ _
  relative := by decide

end SpineFormal.Verify
