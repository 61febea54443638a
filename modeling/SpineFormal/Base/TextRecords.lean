import SpineFormal.Base.LineFile

/-!
# Records in the output of a program

A program prints records with control characters between the fields and after each record; a
reader in text mode takes every line end as a newline, splits the text at the separators and
strips what is left. The lines of a field do not show the line ends nor what was stripped.
-/

namespace SpineFormal

set_option autoImplicit false

/-! ## Pieces -/

section
variable {sep c : Char} {s t : List Char}

theorem splitOn_cons_of_ne (h : c ≠ sep) (s : List Char) :
    (c :: s).splitOn sep = (s.splitOn sep).modifyHead (c :: ·) := by
  rw [List.splitOn_cons_eq_if_modifyHead, if_neg (by simpa using h)]

/-- A piece has no more separators of another kind than the text. -/
theorem sublist_of_mem_splitOn {piece : List Char} (h : piece ∈ s.splitOn sep) :
    piece.Sublist s := by
  induction s generalizing piece with
  | nil =>
    obtain rfl : piece = [] := List.mem_singleton.mp h
    exact .slnil
  | cons c s ih =>
    rw [List.splitOn_cons_eq_if_modifyHead] at h
    split_ifs at h with hc
    · rcases List.mem_cons.mp h with rfl | h
      · exact List.nil_sublist _
      · exact (ih h).cons c
    · obtain ⟨first, others, hsplit⟩ := List.exists_cons_of_ne_nil (List.splitOn_ne_nil sep s)
      rw [hsplit] at h ih
      rcases List.mem_cons.mp h with rfl | h
      · exact (ih List.mem_cons_self).cons_cons c
      · exact (ih (List.mem_cons_of_mem first h)).cons c

theorem notMem_of_mem_splitOn {piece : List Char} (h : piece ∈ s.splitOn sep) : sep ∉ piece := by
  induction s generalizing piece with
  | nil =>
    obtain rfl : piece = [] := List.mem_singleton.mp h
    exact List.not_mem_nil
  | cons c s ih =>
    rw [List.splitOn_cons_eq_if_modifyHead] at h
    split_ifs at h with hc
    · rcases List.mem_cons.mp h with rfl | h
      · exact List.not_mem_nil
      · exact ih h
    · obtain ⟨first, others, hsplit⟩ := List.exists_cons_of_ne_nil (List.splitOn_ne_nil sep s)
      rw [hsplit] at h ih
      rcases List.mem_cons.mp h with rfl | h
      · have hne : sep ≠ c := fun heq => hc (beq_iff_eq.mpr heq.symm)
        exact List.not_mem_cons_of_ne_of_not_mem hne (ih List.mem_cons_self)
      · exact ih (List.mem_cons_of_mem first h)

theorem length_splitOn (sep : Char) (s : List Char) :
    (s.splitOn sep).length = s.count sep + 1 := by
  induction s with
  | nil => rfl
  | cons c s ih =>
    rw [List.splitOn_cons_eq_if_modifyHead, List.count_cons]
    split_ifs with hc
    · rw [List.length_cons, ih]
    · rw [List.length_modifyHead, ih, Nat.add_zero]

theorem splitOn_intercalate_three {a b d : List Char} (ha : sep ∉ a) (hb : sep ∉ b) (hd : sep ∉ d)
    (ht : sep ∉ t) :
    (a ++ sep :: (b ++ sep :: (d ++ sep :: t))).splitOn sep = [a, b, d, t] := by
  rw [List.splitOn_append_cons_self_of_not_mem ha, List.splitOn_append_cons_self_of_not_mem hb,
    List.splitOn_append_cons_self_of_not_mem hd, List.splitOn_eq_singleton ht]

/-- What stands before the first separator. -/
def upTo (sep : Char) (s : List Char) : List Char := s.takeWhile (· ≠ sep)

theorem upTo_of_notMem (h : sep ∉ s) : upTo sep s = s := by
  rw [upTo, List.takeWhile_eq_self_iff]
  intro c hc
  have hne : c ≠ sep := fun heq => h (heq ▸ hc)
  simpa using hne

theorem upTo_append_cons (h : sep ∉ s) (t : List Char) : upTo sep (s ++ sep :: t) = s := by
  have hall : ∀ c ∈ s, decide (c ≠ sep) = true := by
    intro c hc
    have hne : c ≠ sep := fun heq => h (heq ▸ hc)
    simpa using hne
  rw [upTo, List.takeWhile_append_of_pos hall, List.takeWhile_cons_of_neg (by simp),
    List.append_nil]

/-- The first separator of two texts in a row is the first one of the first text. -/
theorem upTo_append (h : sep ∈ s) (t : List Char) : upTo sep (s ++ t) = upTo sep s := by
  obtain ⟨a, b, rfl, ha⟩ := List.eq_append_cons_of_mem h
  rw [List.append_assoc, List.cons_append, upTo_append_cons ha, upTo_append_cons ha]

end

/-! ## Line ends -/

/-- Text mode: every line end is read as a newline. -/
def universalNewlines : List Char → List Char
  | [] => []
  | '\r' :: '\n' :: s => '\n' :: universalNewlines s
  | c :: s => (if c = '\r' then '\n' else c) :: universalNewlines s

section
variable {c : Char} {s t : List Char}

theorem universalNewlines_cons_of_ne (h : c ≠ '\r') (s : List Char) :
    universalNewlines (c :: s) = c :: universalNewlines s := by
  rw [universalNewlines, if_neg h]
  rintro t rfl -
  exact h rfl

/-- What does not begin with a newline is read on its own. -/
theorem universalNewlines_append_cons (h : c ≠ '\n') (s t : List Char) :
    universalNewlines (s ++ c :: t) = universalNewlines s ++ universalNewlines (c :: t) := by
  induction s using universalNewlines.induct with
  | case1 => rfl
  | case2 s ih =>
    rw [List.cons_append, List.cons_append, universalNewlines, universalNewlines, ih,
      List.cons_append]
  | case3 d s hno ih =>
    have hd : ∀ u, d = '\r' → s ++ c :: t = '\n' :: u → False := by
      intro u hr hu
      cases s with
      | nil => exact h (List.cons_eq_cons.mp hu).1
      | cons e s =>
        rw [List.cons_append] at hu
        exact hno s hr (by rw [(List.cons_eq_cons.mp hu).1])
    rw [List.cons_append, universalNewlines, universalNewlines, ih, List.cons_append]
    · exact hno
    · exact hd

/-- A separator stays one, and what is before it and after it is read on its own. -/
theorem universalNewlines_separator (hn : c ≠ '\n') (hr : c ≠ '\r') (s t : List Char) :
    universalNewlines (s ++ c :: t) = universalNewlines s ++ c :: universalNewlines t := by
  rw [universalNewlines_append_cons hn, universalNewlines_cons_of_ne hr]

theorem mem_universalNewlines (hn : c ≠ '\n') (hr : c ≠ '\r') :
    c ∈ universalNewlines s ↔ c ∈ s := by
  induction s using universalNewlines.induct with
  | case1 => rfl
  | case2 s ih =>
    rw [universalNewlines, List.mem_cons, List.mem_cons, List.mem_cons, ih]
    tauto
  | case3 d s hno ih =>
    rw [universalNewlines, List.mem_cons, List.mem_cons, ih]
    · split_ifs with hd
      · simp [hn, hd, hr]
      · rfl
    · exact hno

theorem universalNewlines_eq_self (h : '\r' ∉ s) : universalNewlines s = s := by
  induction s with
  | nil => rfl
  | cons c s ih =>
    obtain ⟨hc, hs⟩ := List.ne_and_not_mem_of_not_mem_cons h
    rw [universalNewlines_cons_of_ne hc.symm, ih hs]

theorem upTo_universalNewlines (hn : c ≠ '\n') (hr : c ≠ '\r') (s : List Char) :
    upTo c (universalNewlines s) = universalNewlines (upTo c s) := by
  by_cases h : c ∈ s
  · obtain ⟨a, b, rfl, ha⟩ := List.eq_append_cons_of_mem h
    have ha' : c ∉ universalNewlines a := fun hmem => ha ((mem_universalNewlines hn hr).mp hmem)
    rw [universalNewlines_separator hn hr, upTo_append_cons ha', upTo_append_cons ha]
  · rw [upTo_of_notMem h, upTo_of_notMem fun hmem => h ((mem_universalNewlines hn hr).mp hmem)]

theorem splitlines_universalNewlines (s : List Char) :
    splitlines (universalNewlines s) = splitlines s := by
  induction s using universalNewlines.induct with
  | case1 => rfl
  | case2 s ih =>
    rw [universalNewlines, splitlines_cons_of_break (by decide) fun _ h => absurd h (by decide),
      splitlines, ih]
  | case3 c s hno ih =>
    have hc : universalNewlines (c :: s) = (if c = '\r' then '\n' else c) :: universalNewlines s :=
      universalNewlines.eq_3 c s hno
    rw [hc]
    by_cases hr : c = '\r'
    · subst hr
      rw [if_pos rfl, splitlines_cons_of_break (by decide) fun _ h => absurd h (by decide),
        splitlines_cons_of_break (by decide) hno, ih]
    · rw [if_neg hr]
      cases hb : lineBreak c with
      | true =>
        rw [splitlines_cons_of_break hb fun _ h => absurd h hr,
          splitlines_cons_of_break hb fun _ h => absurd h hr, ih]
      | false => rw [splitlines_cons_of_plain hb, splitlines_cons_of_plain hb, ih]

end

/-! ## Stripping -/

section
variable {space : Char → Bool} {c : Char} {u s t : List Char}

theorem rdropWhile_append_cons (hc : space c = false) (u s : List Char) :
    (u ++ c :: s).rdropWhile space = u ++ c :: s.rdropWhile space := by
  induction s using List.reverseRecOn with
  | nil => rw [List.rdropWhile_concat_neg _ _ _ (by simp [hc]), List.rdropWhile_nil]
  | append_singleton s d ih =>
    rw [← List.cons_append, ← List.append_assoc]
    by_cases hd : space d = true
    · rw [List.rdropWhile_concat_pos _ _ _ hd, List.rdropWhile_concat_pos _ _ _ hd, ih]
    · rw [List.rdropWhile_concat_neg _ _ _ hd, List.rdropWhile_concat_neg _ _ _ hd,
        List.append_assoc, List.cons_append]

/-- A text that begins with no space is stripped at its end only, up to the last such sign. -/
theorem trimBy_append_cons (hu : ∀ d ∈ u.head?, space d = false) (hc : space c = false)
    (s : List Char) : trimBy space (u ++ c :: s) = u ++ c :: s.rdropWhile space := by
  have hfront : (u ++ c :: s).dropWhile space = u ++ c :: s := by
    cases u with
    | nil => exact List.dropWhile_cons_of_neg (by simp [hc])
    | cons d u => exact List.dropWhile_cons_of_neg (by simp [hu d rfl])
  calc trimBy space (u ++ c :: s) = ((u ++ c :: s).dropWhile space).rdropWhile space := rfl
    _ = u ++ c :: s.rdropWhile space := by rw [hfront, rdropWhile_append_cons hc]

theorem mem_of_mem_splitlines {line : List Char} (h : line ∈ splitlines s) (hc : c ∈ line) :
    c ∈ s ∧ lineBreak c = false := by
  induction s using splitlines.induct generalizing line with
  | case1 => cases h
  | case2 s ih =>
    rw [splitlines] at h
    rcases List.mem_cons.mp h with rfl | h
    · cases hc
    · obtain ⟨hmem, hplain⟩ := ih h hc
      exact ⟨List.mem_cons_of_mem _ (List.mem_cons_of_mem _ hmem), hplain⟩
  | case3 d s hno hd ih =>
    rw [splitlines_cons_of_break hd hno] at h
    rcases List.mem_cons.mp h with rfl | h
    · cases hc
    · obtain ⟨hmem, hplain⟩ := ih h hc
      exact ⟨List.mem_cons_of_mem _ hmem, hplain⟩
  | case4 d s hno hd hnil ih =>
    have hd' : lineBreak d = false := by simpa using hd
    rw [splitlines_cons_of_plain hd', hnil] at h
    obtain rfl : line = [d] := List.mem_singleton.mp h
    obtain rfl : c = d := List.mem_singleton.mp hc
    exact ⟨List.mem_cons_self, hd'⟩
  | case5 d s hno hd first others hcons ih =>
    have hd' : lineBreak d = false := by simpa using hd
    rw [hcons] at ih
    rw [splitlines_cons_of_plain hd', hcons] at h
    rcases List.mem_cons.mp h with rfl | h
    · rcases List.mem_cons.mp hc with rfl | hc
      · exact ⟨List.mem_cons_self, hd'⟩
      · obtain ⟨hmem, hplain⟩ := ih List.mem_cons_self hc
        exact ⟨List.mem_cons_of_mem d hmem, hplain⟩
    · obtain ⟨hmem, hplain⟩ := ih (List.mem_cons_of_mem first h) hc
      exact ⟨List.mem_cons_of_mem d hmem, hplain⟩

/-- The lines of a text with spaces after it: some lines have spaces after them too, and
there may be blank lines more. -/
theorem splitlines_append_space (s : List Char) (ht : ∀ c ∈ t, space c = true) :
    ∃ lines blanks, splitlines (s ++ t) = lines ++ blanks ∧
      List.Forall₂ (fun line line' => ∃ a, line = line' ++ a ∧ ∀ c ∈ a, space c = true)
        lines (splitlines s) ∧
      ∀ line ∈ blanks, ∀ c ∈ line, space c = true := by
  have hblank : ∀ t' : List Char, (∀ c ∈ t', space c = true) →
      ∀ line ∈ splitlines t', ∀ c ∈ line, space c = true :=
    fun t' ht' line hline c hc => ht' c (mem_of_mem_splitlines hline hc).1
  have hsame : ∀ line : List Char, ∃ a, line = line ++ a ∧ ∀ c ∈ a, space c = true :=
    fun line => ⟨[], (List.append_nil line).symm, by simp⟩
  induction s using splitlines.induct with
  | case1 => exact ⟨[], splitlines t, rfl, .nil, hblank t ht⟩
  | case2 s ih =>
    obtain ⟨lines, blanks, heq, hlines, hblanks⟩ := ih
    refine ⟨[] :: lines, blanks, ?_, ?_, hblanks⟩
    · rw [List.cons_append, List.cons_append, splitlines, heq, List.cons_append]
    · rw [splitlines]
      exact .cons (hsame []) hlines
  | case3 d s hno hd ih =>
    rw [splitlines_cons_of_break hd hno, List.cons_append]
    by_cases hnext : ∃ u, d = '\r' ∧ s ++ t = '\n' :: u
    · obtain ⟨u, rfl, hu⟩ := hnext
      cases s with
      | nil =>
        obtain rfl : t = '\n' :: u := hu
        refine ⟨[[]], splitlines u, ?_, .cons (hsame []) .nil, ?_⟩
        · rw [List.nil_append, splitlines, List.singleton_append]
        · exact hblank u fun c hc => ht c (List.mem_cons_of_mem _ hc)
      | cons e s => exact absurd (by rw [(List.cons_eq_cons.mp hu).1]) (hno s rfl)
    · obtain ⟨lines, blanks, heq, hlines, hblanks⟩ := ih
      refine ⟨[] :: lines, blanks, ?_, .cons (hsame []) hlines, hblanks⟩
      rw [splitlines_cons_of_break hd fun u hr hu => hnext ⟨u, hr, hu⟩, heq, List.cons_append]
  | case4 d s hno hd hnil ih =>
    have hd' : lineBreak d = false := by simpa using hd
    obtain rfl := eq_nil_of_splitlines hnil
    rw [List.cons_append, List.nil_append, splitlines_cons_of_plain hd',
      splitlines_cons_of_plain hd', hnil]
    cases hlines : splitlines t with
    | nil => exact ⟨[[d]], [], rfl, .cons (hsame [d]) .nil, by simp⟩
    | cons first others =>
      have hall := hblank t ht
      rw [hlines] at hall
      refine ⟨[d :: first], others, rfl, .cons ⟨first, rfl, hall first List.mem_cons_self⟩ .nil, ?_⟩
      exact fun line hline => hall line (List.mem_cons_of_mem first hline)
  | case5 d s hno hd first others hcons ih =>
    have hd' : lineBreak d = false := by simpa using hd
    obtain ⟨lines, blanks, heq, hlines, hblanks⟩ := ih
    rw [List.cons_append, splitlines_cons_of_plain hd', splitlines_cons_of_plain hd', heq, hcons]
    rw [hcons] at hlines
    cases hlines with
    | cons hfirst hothers =>
      obtain ⟨a, rfl, ha⟩ := hfirst
      exact ⟨_, blanks, rfl, .cons ⟨a, rfl, ha⟩ hothers, hblanks⟩

end

end SpineFormal
