import SpineFormal.Base.TextRecords

/-!
# The two parts of a commit message

A message is a title of one paragraph, blank lines and a body. A version control program
prints the title on one line (`%s`) and the body as it is (`%b`). Which part of a text that is
written as `subject`, a blank line and `rest` is printed as which.
-/

namespace SpineFormal

set_option autoImplicit false

/-- The white space a line may have and still be blank. -/
def gitSpace (c : Char) : Bool := c = ' ' || c = '\t' || c = '\n' || c = '\r'

def blankLine (line : List Char) : Bool := line.all gitSpace

def unlines (lines : List (List Char)) : List Char := ['\n'].intercalate lines

theorem unlines_append {xs ys : List (List Char)} (hx : xs ≠ []) (hy : ys ≠ []) :
    unlines (xs ++ ys) = unlines xs ++ '\n' :: unlines ys := by
  induction xs with
  | nil => contradiction
  | cons x xs ih =>
    rw [List.cons_append, unlines, List.intercalate_cons_of_ne_nil (by simp [hy]), ← unlines]
    cases xs with
    | nil => rw [List.nil_append, unlines, unlines, List.intercalate_singleton, List.append_assoc,
        List.singleton_append]
    | cons x' xs =>
      have hcons : unlines (x :: x' :: xs) = x ++ ['\n'] ++ unlines (x' :: xs) :=
        List.intercalate_cons_cons
      rw [ih (List.cons_ne_nil _ _), hcons]
      simp only [List.append_assoc]

/-- Title, blank lines and body of a message. -/
structure Paragraphs (title blanks body : List (List Char)) : Prop where
  lines : ∀ line ∈ title ++ (blanks ++ body), '\n' ∉ line
  title_ne : title ≠ []
  title_text : ∀ line ∈ title, blankLine line = false
  blanks_ne : blanks ≠ []
  blanks_blank : ∀ line ∈ blanks, blankLine line = true
  body_text : ∀ line ∈ body.head?, blankLine line = false

/-- A title in one line. -/
def oneLine (title : List (List Char)) : List Char :=
  [' '].intercalate (title.map (List.rdropWhile gitSpace))

/-- How messages are printed: the title paragraph in one line, the body unchanged. -/
structure Git where
  subjectOf : List Char → List Char
  bodyOf : List Char → List Char
  subjectOf_paragraphs : ∀ {title blanks body : List (List Char)}, Paragraphs title blanks body →
    subjectOf (unlines (title ++ (blanks ++ body))) = oneLine title
  bodyOf_paragraphs : ∀ {title blanks body : List (List Char)}, Paragraphs title blanks body →
    bodyOf (unlines (title ++ (blanks ++ body))) = unlines body

/-! ## Printing line by line -/

def titleLines (lines : List (List Char)) : List (List Char) := lines.takeWhile (!blankLine ·)

def bodyLines (lines : List (List Char)) : List (List Char) :=
  (lines.dropWhile (!blankLine ·)).dropWhile blankLine

section
variable {title blanks body : List (List Char)}

theorem Paragraphs.splitOn (h : Paragraphs title blanks body) :
    (unlines (title ++ (blanks ++ body))).splitOn '\n' = title ++ (blanks ++ body) :=
  List.splitOn_intercalate '\n' h.lines (by simp [h.title_ne])

theorem Paragraphs.dropWhile_blank (h : Paragraphs title blanks body) :
    (title ++ (blanks ++ body)).dropWhile blankLine = title ++ (blanks ++ body) := by
  obtain ⟨line, title, rfl⟩ := List.exists_cons_of_ne_nil h.title_ne
  exact List.dropWhile_cons_of_neg (by simp [h.title_text line List.mem_cons_self])

theorem Paragraphs.title_all (h : Paragraphs title blanks body) :
    ∀ line ∈ title, (!blankLine line) = true := by
  intro line hline
  rw [h.title_text line hline, Bool.not_false]

theorem Paragraphs.titleLines (h : Paragraphs title blanks body) :
    titleLines (title ++ (blanks ++ body)) = title := by
  obtain ⟨line, blanks, rfl⟩ := List.exists_cons_of_ne_nil h.blanks_ne
  rw [SpineFormal.titleLines, List.takeWhile_append_of_pos h.title_all, List.cons_append,
    List.takeWhile_cons_of_neg (by simp [h.blanks_blank line List.mem_cons_self]), List.append_nil]

theorem Paragraphs.bodyLines (h : Paragraphs title blanks body) :
    bodyLines (title ++ (blanks ++ body)) = body := by
  have hblanks : (blanks ++ body).dropWhile (!blankLine ·) = blanks ++ body := by
    obtain ⟨line, blanks, rfl⟩ := List.exists_cons_of_ne_nil h.blanks_ne
    exact List.dropWhile_cons_of_neg (by simp [h.blanks_blank line List.mem_cons_self])
  have hbody : body.dropWhile blankLine = body := by
    cases body with
    | nil => rfl
    | cons line body => exact List.dropWhile_cons_of_neg (by simp [h.body_text line rfl])
  rw [SpineFormal.bodyLines, List.dropWhile_append_of_pos h.title_all, hblanks,
    List.dropWhile_append_of_pos h.blanks_blank, hbody]

end

/-- The printer that goes over the lines: blank ones first, then the title, then blank ones. -/
def Git.byLines : Git where
  subjectOf m := oneLine (titleLines ((m.splitOn '\n').dropWhile blankLine))
  bodyOf m := unlines (bodyLines ((m.splitOn '\n').dropWhile blankLine))
  subjectOf_paragraphs h := by rw [h.splitOn, h.dropWhile_blank, h.titleLines]
  bodyOf_paragraphs h := by rw [h.splitOn, h.dropWhile_blank, h.bodyLines]

/-! ## A subject, a blank line and the rest -/

section
variable {α : Type} {p : α → Bool} {a : α}

theorem takeWhile_append_cons (ha : p a = false) (xs ys : List α) :
    (xs ++ a :: ys).takeWhile p = xs.takeWhile p := by
  induction xs with
  | nil => exact List.takeWhile_cons_of_neg (by simp [ha])
  | cons x xs ih => rw [List.cons_append, List.takeWhile_cons, List.takeWhile_cons, ih]

theorem dropWhile_append_cons (ha : p a = false) (xs ys : List α) :
    (xs ++ a :: ys).dropWhile p = xs.dropWhile p ++ a :: ys := by
  induction xs with
  | nil => exact List.dropWhile_cons_of_neg (by simp [ha])
  | cons x xs ih =>
    rw [List.cons_append, List.dropWhile_cons, List.dropWhile_cons, ih]
    split <;> rfl

end

/-- The text begins with a sign that no blank line has. -/
def StartsText (s : List Char) : Prop := ∃ c t, s = c :: t ∧ gitSpace c = false

theorem StartsText.splitOn {s : List Char} (h : StartsText s) :
    ∃ line lines, s.splitOn '\n' = line :: lines ∧ blankLine line = false := by
  obtain ⟨c, t, rfl, hc⟩ := h
  have hne : c ≠ '\n' := by
    rintro rfl
    exact absurd hc (by decide)
  obtain ⟨line, lines, ht⟩ := List.exists_cons_of_ne_nil (List.splitOn_ne_nil '\n' t)
  refine ⟨c :: line, lines, ?_, ?_⟩
  · rw [List.splitOn_cons_eq_if_modifyHead, if_neg (by simpa using hne), ht, List.modifyHead_cons]
  · rw [blankLine, List.all_cons, hc, Bool.false_and]

/-- The title of a subject that may have more paragraphs. -/
def titleOf (subject : List Char) : List Char := oneLine (titleLines (subject.splitOn '\n'))

/-- The paragraphs of a subject that are printed with the body, and the blank line after it. -/
def surplus (subject : List Char) : List Char :=
  match bodyLines (subject.splitOn '\n') with
  | [] => []
  | line :: lines => unlines (line :: lines) ++ ['\n', '\n']

theorem surplus_ends (subject : List Char) :
    surplus subject = [] ∨ ∃ s, surplus subject = s ++ ['\n'] := by
  rw [surplus]
  split
  · exact .inl rfl
  · exact .inr ⟨_, (List.append_assoc _ ['\n'] ['\n']).symm⟩

theorem mem_titleOf {c : Char} {subject : List Char} (h : c ∈ titleOf subject) :
    c = ' ' ∨ c ∈ subject := by
  rcases mem_intercalate h with hspace | ⟨field, hfield, hc⟩
  · exact .inl hspace
  · obtain ⟨line, hline, rfl⟩ := List.mem_map.mp hfield
    have hmem : line ∈ subject.splitOn '\n' := (List.takeWhile_sublist _).subset hline
    exact .inr ((sublist_of_mem_splitOn hmem).subset ((List.rdropWhile_prefix _ _).subset hc))

theorem mem_surplus {c : Char} {subject : List Char} (h : c ∈ surplus subject) :
    c = '\n' ∨ c ∈ subject := by
  rw [surplus] at h
  split at h
  · cases h
  · next line lines heq =>
    rcases List.mem_append.mp h with h | h
    · rcases mem_intercalate h with hbreak | ⟨field, hfield, hc⟩
      · exact .inl hbreak
      · have hmem : field ∈ subject.splitOn '\n' := by
          rw [← heq] at hfield
          exact (List.dropWhile_sublist _).subset ((List.dropWhile_sublist _).subset hfield)
        exact .inr ((sublist_of_mem_splitOn hmem).subset hc)
    · simp only [List.mem_cons, List.not_mem_nil, or_false, or_self] at h
      exact .inl h

section
variable {subject rest : List Char}

theorem splitOn_message (subject rest : List Char) :
    (subject ++ '\n' :: '\n' :: rest).splitOn '\n' =
      subject.splitOn '\n' ++ [] :: rest.splitOn '\n' := by
  have hrest : ('\n' :: rest).splitOn '\n' = [] :: rest.splitOn '\n' :=
    List.splitOn_append_cons_self [] rest
  rw [List.splitOn_append_cons_self, hrest]

/-- Its lines after the title, blank ones left out at the start. -/
theorem bodyLines_message (hr : StartsText rest) :
    bodyLines (subject.splitOn '\n' ++ [] :: rest.splitOn '\n') =
      if bodyLines (subject.splitOn '\n') = [] then rest.splitOn '\n'
      else bodyLines (subject.splitOn '\n') ++ [] :: rest.splitOn '\n' := by
  obtain ⟨line, lines, hlines, htext⟩ := hr.splitOn
  have hrest : ([] :: rest.splitOn '\n').dropWhile blankLine = rest.splitOn '\n' := by
    rw [List.dropWhile_cons_of_pos (by rfl), hlines, List.dropWhile_cons_of_neg (by simp [htext])]
  rw [bodyLines, dropWhile_append_cons (by rfl), List.dropWhile_append, hrest, ← bodyLines]
  simp only [List.isEmpty_iff]

theorem titleLines_message (subject rest : List Char) :
    titleLines (subject.splitOn '\n' ++ [] :: rest.splitOn '\n') =
      titleLines (subject.splitOn '\n') :=
  takeWhile_append_cons (by rfl) _ _

theorem paragraphs_message (hs : StartsText subject) (hr : StartsText rest) :
    ∃ blanks, subject.splitOn '\n' ++ [] :: rest.splitOn '\n' =
        titleLines (subject.splitOn '\n') ++
          (blanks ++ bodyLines (subject.splitOn '\n' ++ [] :: rest.splitOn '\n')) ∧
      Paragraphs (titleLines (subject.splitOn '\n')) blanks
        (bodyLines (subject.splitOn '\n' ++ [] :: rest.splitOn '\n')) := by
  obtain ⟨line, lines, hlines, htext⟩ := hs.splitOn
  set all := subject.splitOn '\n' ++ [] :: rest.splitOn '\n' with hall
  set later := all.dropWhile (!blankLine ·) with hlater
  have heq : all = titleLines (subject.splitOn '\n') ++
      (later.takeWhile blankLine ++ bodyLines all) := by
    rw [← titleLines_message subject rest, ← hall, titleLines, bodyLines, ← hlater,
      List.takeWhile_append_dropWhile, hlater, List.takeWhile_append_dropWhile]
  have hblank : ∃ blank others, later = blank :: others ∧ blankLine blank = true := by
    have hne : later ≠ [] := by
      rw [hlater, hall, dropWhile_append_cons (by rfl)]
      simp
    obtain ⟨blank, others, hcons⟩ := List.exists_cons_of_ne_nil hne
    have hhead := List.head_dropWhile_not (fun line => !blankLine line) (hlater ▸ hne)
    simp only [← hlater, hcons, List.head_cons, Bool.not_eq_false'] at hhead
    exact ⟨blank, others, hcons, hhead⟩
  refine ⟨later.takeWhile blankLine, heq, ?_, ?_, ?_, ?_, ?_, ?_⟩
  · rw [← heq, hall, ← splitOn_message]
    exact fun line hline => notMem_of_mem_splitOn hline
  · rw [hlines, titleLines, List.takeWhile_cons_of_pos (by simp [htext])]
    exact List.cons_ne_nil _ _
  · intro line hline
    have htrue := List.mem_takeWhile_imp hline
    simpa using htrue
  · obtain ⟨blank, others, hcons, htrue⟩ := hblank
    rw [hcons, List.takeWhile_cons_of_pos htrue]
    exact List.cons_ne_nil _ _
  · exact fun line hline => List.mem_takeWhile_imp hline
  · intro line hline
    have hne : later.dropWhile blankLine ≠ [] := by
      rintro hnil
      rw [bodyLines, ← hlater, hnil] at hline
      cases hline
    have hhead := List.head_dropWhile_not blankLine hne
    have hmem : (later.dropWhile blankLine).head hne = line := by
      rw [bodyLines, ← hlater, Option.mem_def, List.head?_eq_some_head hne] at hline
      exact Option.some.inj hline
    rw [← hmem, hhead]

theorem unlines_message (subject rest : List Char) :
    unlines (subject.splitOn '\n' ++ [] :: rest.splitOn '\n') =
      subject ++ '\n' :: '\n' :: rest := by
  rw [← splitOn_message, unlines, List.intercalate_splitOn]

variable (git : Git)

theorem Git.subjectOf_message (hs : StartsText subject) (hr : StartsText rest) :
    git.subjectOf (subject ++ '\n' :: '\n' :: rest) = titleOf subject := by
  obtain ⟨blanks, heq, hpar⟩ := paragraphs_message hs hr
  rw [← unlines_message, heq, git.subjectOf_paragraphs hpar, titleOf]

theorem Git.bodyOf_message (hs : StartsText subject) (hr : StartsText rest) :
    git.bodyOf (subject ++ '\n' :: '\n' :: rest) = surplus subject ++ rest := by
  obtain ⟨blanks, heq, hpar⟩ := paragraphs_message hs hr
  rw [← unlines_message, heq, git.bodyOf_paragraphs hpar, bodyLines_message hr, surplus]
  cases hlines : bodyLines (subject.splitOn '\n') with
  | nil => rw [if_pos rfl, unlines, List.intercalate_splitOn, List.nil_append]
  | cons line lines =>
    have hone : unlines ([] :: rest.splitOn '\n') = '\n' :: rest := by
      rw [unlines, List.intercalate_cons_of_ne_nil (List.splitOn_ne_nil _ _),
        List.intercalate_splitOn, List.nil_append, List.singleton_append]
    rw [if_neg (List.cons_ne_nil _ _), unlines_append (List.cons_ne_nil _ _)
      (List.cons_ne_nil _ _), hone, List.append_assoc]
    rfl

end

end SpineFormal
