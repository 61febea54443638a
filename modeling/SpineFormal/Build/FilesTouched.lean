import SpineFormal.Base.Numerals
import SpineFormal.Build.ReportParser

/-!
# Reading a "Files touched" section back

A list of paths and changes is written as the bullets of a section and parsed again. The
pattern for a bullet takes the blanks after a backquoted path before it looks for the change,
which then asks for one more.
-/

namespace SpineFormal.Build

open Json Re
set_option autoImplicit false

variable (u : TextTables)

/-! ## Writing -/

inductive Change where
  | created
  | modified
  | deleted
  deriving DecidableEq

namespace Change

def word : Change → List Char
  | created => "created".toList
  | modified => "modified".toList
  | deleted => "deleted".toList

def type : Change → ChangeType
  | created => .create
  | modified => .modify
  | deleted => .delete

end Change

inductive BulletShape where
  | parenthesised
  | backquoted
  deriving DecidableEq

/-- Neither white space nor a backquote nor a parenthesis. -/
def plainPathChar (c : Char) : Bool := !pySpace c && !isTick c && c != '(' && c != ')'

structure FileEntry where
  path : List Char
  change : Change
  shape : BulletShape
  plain : ∀ c ∈ path, plainPathChar c = true

namespace FileEntry
variable (b : FileEntry)

/-- What stands after the mark and the blank. -/
def body : List Char :=
  match b.shape with
  | .parenthesised => b.path ++ ' ' :: '(' :: (b.change.word ++ [')'])
  | .backquoted => '`' :: (b.path ++ '`' :: ' ' :: b.change.word)

def bullet : List Char := '-' :: ' ' :: b.body

/-- What `_FILE_BULLET_RE` gives for the change. -/
def found : Option (List Char) :=
  match b.shape with
  | .parenthesised => some b.change.word
  | .backquoted => none

def readType : ChangeType :=
  match b.shape with
  | .parenthesised => b.change.type
  | .backquoted => .modify

end FileEntry

def filesHeading : List Char := "## Files touched".toList

/-- The other lines of a report, before and after the section. -/
structure ReportFrame where
  before : List (List Char)
  after : List (List Char)
  unbroken : ∀ line ∈ before ++ after, ∀ c ∈ line, lineBreak c = false
  before_apart : ∀ s ∈ splitSections u .preamble before, s.1 ≠ .files
  after_apart : ∀ s ∈ splitSections u .files after, s.1 ≠ .files

/-- Lines as a text; each ends with a newline. -/
def textOf (lines : List (List Char)) : List Char := lines.flatMap fun line => line ++ ['\n']

def ReportFrame.write (frame : ReportFrame u) (entries : List FileEntry) : List Char :=
  textOf (frame.before ++ filesHeading :: (entries.map FileEntry.bullet ++ frame.after))

theorem splitlines_textOf {lines : List (List Char)}
    (h : ∀ line ∈ lines, ∀ c ∈ line, lineBreak c = false) : splitlines (textOf lines) = lines := by
  induction lines with
  | nil => rfl
  | cons line lines ih =>
    obtain ⟨hline, hlines⟩ := List.forall_mem_cons.mp h
    rw [textOf, List.flatMap_cons, List.append_assoc, List.singleton_append,
      splitlines_line hline]
    exact congrArg (line :: ·) (ih hlines)

/-! ## The characters of a bullet -/

theorem pathChar_of_plain {c : Char} (h : plainPathChar c = true) : pathChar c = true := by
  unfold plainPathChar at h
  exact (Bool.and_eq_true_iff.mp h).1

theorem not_space_of_pathChar {c : Char} (h : pathChar c = true) : pySpace c = false := by
  unfold pathChar at h
  simpa using (Bool.and_eq_true_iff.mp (Bool.and_eq_true_iff.mp h).1).1

theorem not_tick_of_pathChar {c : Char} (h : pathChar c = true) : isTick c = false := by
  unfold pathChar at h
  simpa using (Bool.and_eq_true_iff.mp (Bool.and_eq_true_iff.mp h).1).2

theorem lineBreak_of_not_space {c : Char} (h : pySpace c = false) : lineBreak c = false := by
  cases hbreak : lineBreak c with
  | false => rfl
  | true => rw [pySpace_of_lineBreak hbreak] at h; cases h

theorem space_of_whiteSpace {c : Char} (h : pySpace c = false) : whiteSpace c = false := by
  unfold pySpace at h
  exact (Bool.or_eq_false_iff.mp h).1

namespace Change

theorem ascii_word (change : Change) : ∀ c ∈ change.word, c.toNat < 128 := by
  cases change <;> exact Numerals.forall_mem_of_all (by decide)

theorem unbroken_word (change : Change) : ∀ c ∈ change.word, lineBreak c = false := by
  cases change <;> exact Numerals.forall_mem_of_all (by decide)

theorem d_mem_word (change : Change) : 'd' ∈ change.word := by
  cases change <;> decide

/-- Every one of the words ends in a `d`. -/
theorem getLast_word (change : Change) : change.word.getLast? = some 'd' := by
  cases change <;> rfl

theorem folded (change : Change) : change.word.map foldCase = change.word := by
  cases change <;> decide

/-- The word is read back as the change that it names. -/
theorem normalise_word (change : Change) : normaliseChangeType u (some change.word) = change.type := by
  have hlower : u.lower change.word = change.word := by
    rw [u.lower_ascii _ change.ascii_word]
    cases change <;> decide
  rw [normaliseChangeType, hlower]
  cases change <;> decide

end Change

namespace FileEntry
variable (b : FileEntry)

theorem d_mem_bullet : 'd' ∈ b.bullet := by
  have hword := b.change.d_mem_word
  unfold bullet body
  cases b.shape <;> simp [hword]

theorem unbroken_bullet : ∀ c ∈ b.bullet, lineBreak c = false := by
  have hpath : ∀ c ∈ b.path, lineBreak c = false := fun c hc =>
    lineBreak_of_not_space (not_space_of_pathChar (pathChar_of_plain (b.plain c hc)))
  have hword := b.change.unbroken_word
  intro c hc
  unfold bullet body at hc
  cases hshape : b.shape with
  | parenthesised =>
    rw [hshape] at hc
    simp only [List.mem_cons, List.mem_append, List.not_mem_nil, or_false] at hc
    rcases hc with rfl | rfl | hc | rfl | rfl | hc | rfl
    exacts [by decide, by decide, hpath c hc, by decide, by decide, hword c hc, by decide]
  | backquoted =>
    rw [hshape] at hc
    simp only [List.mem_cons, List.mem_append] at hc
    rcases hc with rfl | rfl | rfl | hc | rfl | rfl | hc
    exacts [by decide, by decide, by decide, hpath c hc, by decide, by decide, hword c hc]

end FileEntry

/-! ## What the pattern finds -/

theorem first_ci {word t : List Char} (h : word.map foldCase = word) {α : Type}
    (k : List Char → List Char → Option α) : (ci word).first (word ++ t) k = k word t := by
  induction word generalizing k with
  | nil => exact first_eps t k
  | cons c word ih =>
    obtain ⟨hc, hword⟩ := List.cons.inj h
    rw [ci, first_seq, List.cons_append, first_cls_cons, if_pos (beq_iff_eq.mpr hc), ih hword]
    rfl

theorem first_ci_stop {l c : Char} (h : foldCase c ≠ l) (word s : List Char) {α : Type}
    (k : List Char → List Char → Option α) : (ci (l :: word)).first (c :: s) k = none := by
  rw [ci, first_seq, first_cls_cons, if_neg fun heq => h (beq_iff_eq.mp heq)]

/-- Among the words of the pattern a change is found as itself. -/
theorem changeWords_first (change : Change) {t : List Char} {α : Type}
    {k : List Char → List Char → Option α} {x : α} (hk : k change.word t = some x) :
    (changeWords.findSome? fun word => (ci word).first (change.word ++ t) k) = some x := by
  have hself : (ci change.word).first (change.word ++ t) k = some x :=
    (first_ci change.folded k).trans hk
  unfold changeWords
  cases change with
  | created =>
    rw [List.findSome?_cons]
    simp only [show (ci "created".toList).first (Change.created.word ++ t) k = some x from hself]
  | modified =>
    have hcreated : (ci "created".toList).first (Change.modified.word ++ t) k = none :=
      first_ci_stop (by decide) _ _ k
    rw [List.findSome?_cons, hcreated]
    simp only [List.findSome?_cons,
      show (ci "modified".toList).first (Change.modified.word ++ t) k = some x from hself]
  | deleted =>
    have hcreated : (ci "created".toList).first (Change.deleted.word ++ t) k = none :=
      first_ci_stop (by decide) _ _ k
    have hmodified : (ci "modified".toList).first (Change.deleted.word ++ t) k = none :=
      first_ci_stop (by decide) _ _ k
    rw [List.findSome?_cons, hcreated]
    simp only [List.findSome?_cons, hmodified,
      show (ci "deleted".toList).first (Change.deleted.word ++ t) k = some x from hself]

theorem boundary_word (change : Change) : boundary u change.word [')'] = true := by
  have hd : u.word 'd' = true := (u.word_ascii 'd' (by decide)).trans (by decide)
  have hparen : u.word ')' = false := (u.word_ascii ')' (by decide)).trans (by decide)
  rw [boundary, change.getLast_word, List.head?_cons, Option.any_some, Option.any_some, hd, hparen]
  rfl

theorem inParentheses_word (change : Change) {α : Type} {k : Option (List Char) → List Char → Option α}
    {x : α} (hk : k (some change.word) [] = some x) :
    inParentheses u ('(' :: (change.word ++ [')'])) k = some x := by
  have hclose : (if boundary u change.word [')'] then
      (atLeast 0 fun c => c != ')').first [')'] fun _ t =>
        (lit [')']).first t fun _ t => k (some change.word) t
      else none) = some x := by
    rw [if_pos (boundary_word u change), first_many_stop (by decide)]
    exact (first_lit [')'] [] _).trans hk
  have hopen := first_lit ['('] (change.word ++ [')'])
    fun _ t => changeWords.findSome? fun word => (ci word).first t fun w t =>
      if boundary u w t then
        (atLeast 0 fun c => c != ')').first t fun _ t => (lit [')']).first t fun _ t => k (some w) t
      else none
  rw [List.singleton_append, changeWords_first change hclose] at hopen
  rw [inParentheses, hopen, Option.some_or]

theorem inParentheses_none {c : Char} (h : c ≠ '(') (s : List Char) {α : Type}
    (k : Option (List Char) → List Char → Option α) :
    inParentheses u (c :: s) k = k none (c :: s) := by
  have hstop : ¬ ['('] <+: c :: s := by
    intro hprefix
    exact h (List.cons_prefix_cons.mp hprefix).1.symm
  rw [inParentheses, first_lit_none hstop, Option.none_or]

theorem bareType_stop {c : Char} (h : pySpace c = false) (s : List Char) :
    bareType (c :: s) = none := first_some_stop h s _

theorem bareType_nil : bareType [] = none := rfl

/-- Every word of a change begins with a letter. -/
theorem word_cons (change : Change) :
    ∃ c s, change.word = c :: s ∧ pySpace c = false ∧ c ≠ '(' := by
  cases change with
  | created => exact ⟨'c', "reated".toList, rfl, by decide, by decide⟩
  | modified => exact ⟨'m', "odified".toList, rfl, by decide, by decide⟩
  | deleted => exact ⟨'d', "eleted".toList, rfl, by decide, by decide⟩

theorem afterPath_parenthesised (path : List Char) (change : Change) :
    afterPath u path (' ' :: '(' :: (change.word ++ [')'])) = some (path, some change.word) := by
  rw [afterPath, tick, first_maybe_stop (by decide)]
  refine first_many_greedy (w := [' ']) (t := '(' :: (change.word ++ [')']))
    (List.forall_mem_singleton.mpr (by decide)) ?_ ?_
  · rintro c ⟨⟩
    decide
  · apply inParentheses_word
    rw [bareType_nil]
    rfl

/-- The blank before the bare word is gone when the pattern looks for it. -/
theorem afterPath_backquoted (path : List Char) (change : Change) :
    afterPath u path ('`' :: ' ' :: change.word) = some (path, none) := by
  obtain ⟨c, s, hword, hspace, hparen⟩ := word_cons change
  have hrest : (spaces.first (' ' :: change.word) fun _ s => inParentheses u s fun type s =>
      some (path, type.or (bareType s))) = some (path, none) := by
    refine first_many_greedy (w := [' ']) (t := change.word)
      (List.forall_mem_singleton.mpr (by decide)) ?_ ?_
    · rw [hword]
      rintro d ⟨⟩
      exact hspace
    · rw [hword, inParentheses_none u hparen, bareType_stop hspace]
      rfl
  rw [afterPath, tick, first_maybe_cons rfl, hrest, Option.some_or]

theorem afterMark_path {path s : List Char} {x : List Char × Option (List Char)} (hne : path ≠ [])
    (hpath : ∀ c ∈ path, pathChar c = true) (hs : ∀ c ∈ s.head?, pathChar c = false)
    (hafter : afterPath u path s = some x) : afterMark u (path ++ s) = some x := by
  cases path with
  | nil => exact absurd rfl hne
  | cons c path =>
    have hc := hpath c List.mem_cons_self
    rw [afterMark, tick, List.cons_append, first_maybe_stop (not_tick_of_pathChar hc)]
    exact first_some_greedy (w := c :: path) hne hpath hs hafter

theorem afterMark_stop {c : Char} (hpath : pathChar c = false) (htick : isTick c = false)
    (s : List Char) : afterMark u (c :: s) = none := by
  rw [afterMark, tick, first_maybe_stop htick]
  exact first_some_stop hpath s _

theorem afterMark_ticks (s : List Char) : afterMark u ('`' :: '`' :: s) = none := by
  rw [afterMark, tick, first_maybe_cons rfl, first_some_stop (by decide), Option.none_or]
  exact first_some_stop (by decide) _ _

theorem afterMark_tick_path {path s : List Char} {x : List Char × Option (List Char)}
    (hne : path ≠ []) (hpath : ∀ c ∈ path, pathChar c = true)
    (hs : ∀ c ∈ s.head?, pathChar c = false) (hafter : afterPath u path s = some x) :
    afterMark u ('`' :: (path ++ s)) = some x := by
  rw [afterMark, tick, first_maybe_cons rfl, first_some_greedy hne hpath hs hafter, Option.some_or]

theorem bulletMark_dash : bulletMark '-' = true := rfl

theorem fileBullet_mark {c : Char} (hc : pySpace c = false) (s : List Char) :
    fileBullet u ('-' :: ' ' :: c :: s) = afterMark u (c :: s) := by
  rw [fileBullet, spaces, first_many_stop (by decide), first_cls_cons,
    if_pos bulletMark_dash, first_some_cons (by decide), first_many_stop hc]

/-- The pattern finds the path of an entry, and the change where it stands in parentheses; an entry
without a path it does not match. -/
theorem fileBullet_entry (b : FileEntry) :
    fileBullet u b.bullet = if b.path = [] then none else some (b.path, b.found) := by
  have hpath : ∀ c ∈ b.path, pathChar c = true := fun c hc => pathChar_of_plain (b.plain c hc)
  unfold FileEntry.bullet FileEntry.body FileEntry.found
  cases b.shape with
  | parenthesised =>
    have hblank : ∀ c ∈ (' ' :: '(' :: (b.change.word ++ [')'])).head?, pathChar c = false := by
      rintro c ⟨⟩
      decide
    by_cases hempty : b.path = []
    · rw [if_pos hempty, hempty, fileBullet, spaces, first_many_stop (by decide), first_cls_cons,
        if_pos bulletMark_dash]
      dsimp only
      rw [List.nil_append, first_some_cons (by decide), first_many_cons (by decide),
        first_many_stop (by decide), afterMark_stop u (by decide) (by decide), Option.none_or]
      exact afterMark_stop u (by decide) (by decide) _
    · rw [if_neg hempty]
      have hfound := afterMark_path u hempty hpath hblank (afterPath_parenthesised u b.path b.change)
      cases hb : b.path with
      | nil => exact absurd hb hempty
      | cons c path =>
        rw [hb] at hfound hpath
        rw [List.cons_append, fileBullet_mark u (not_space_of_pathChar (hpath c (.head _)))]
        exact hfound
  | backquoted =>
    have htick : ∀ c ∈ ('`' :: ' ' :: b.change.word).head?, pathChar c = false := by
      rintro c ⟨⟩
      decide
    rw [fileBullet_mark u (by decide)]
    by_cases hempty : b.path = []
    · rw [if_pos hempty, hempty]
      exact afterMark_ticks u _
    · rw [if_neg hempty]
      exact afterMark_tick_path u hempty hpath htick (afterPath_backquoted u b.path b.change)

/-- A bullet that names a change is no placeholder: that pattern has no `d`. -/
theorem noneBullet_entry (b : FileEntry) : noneBullet b.bullet = false := by
  have hnone : (noneRe.first b.bullet fun _ t => if textEnd t then some () else none) = none := by
    apply first_eq_none
    intro w t hsplit hspells
    refine if_neg fun hend => ?_
    have hw : 'd' ∉ w := notMem_of_avoids hspells (by decide)
    have ht : 'd' ∉ t := by
      cases t with
      | nil => exact List.not_mem_nil
      | cons c t =>
        obtain ⟨hc, hnil⟩ := Bool.and_eq_true_iff.mp hend
        rw [beq_iff_eq.mp hc, List.isEmpty_iff.mp hnil]
        decide
    have hd := b.d_mem_bullet
    rw [hsplit] at hd
    exact (List.mem_append.mp hd).elim hw ht
  rw [noneBullet, hnone]
  rfl

theorem normalise_found (b : FileEntry) : normaliseChangeType u b.found = b.readType := by
  unfold FileEntry.found FileEntry.readType
  cases b.shape with
  | parenthesised => exact b.change.normalise_word u
  | backquoted => rfl

/-! ## The section in its report -/

theorem splitSections_append (current : Bucket) (xs ys : List (List Char)) :
    splitSections u current (xs ++ ys) =
      splitSections u current xs ++ splitSections u (openBucket u current xs) ys := by
  induction xs generalizing current with
  | nil => rfl
  | cons line xs ih =>
    rw [List.cons_append, splitSections, splitSections, openBucket]
    cases sectionTitle line with
    | some title => exact ih _
    | none => exact congrArg ((current, line) :: ·) (ih _)

theorem sectionTitle_bullet (b : FileEntry) : sectionTitle b.bullet = none := by
  have hsplits : (Regex.rep false 2 (some 3) (.cls fun c => c == '#')).splits b.bullet = [] := by
    simp [FileEntry.bullet, Regex.splits, turns]
  rw [sectionTitle, Regex.first, hsplits, List.findSome?_nil]

theorem splitSections_bullets (current : Bucket) (entries : List FileEntry) :
    splitSections u current (entries.map FileEntry.bullet) =
      entries.map fun b => (current, b.bullet) := by
  induction entries with
  | nil => rfl
  | cons b entries ih =>
    rw [List.map_cons, splitSections, sectionTitle_bullet]
    exact congrArg ((current, b.bullet) :: ·) ih

theorem openBucket_bullets (current : Bucket) (entries : List FileEntry) :
    openBucket u current (entries.map FileEntry.bullet) = current := by
  induction entries with
  | nil => rfl
  | cons b entries ih =>
    rw [List.map_cons, openBucket, sectionTitle_bullet]
    exact ih

theorem sectionTitle_files : sectionTitle filesHeading = some "Files touched".toList := rfl

theorem classifySection_files : classifySection u "Files touched".toList = .files := by
  have htrim : trimBy pySpace "Files touched".toList = "Files touched".toList := by decide
  have hlower : u.lower "Files touched".toList = "files touched".toList := by
    rw [u.lower_ascii _ (Numerals.forall_mem_of_all (by decide))]
    decide
  rw [classifySection, htrim, hlower]
  decide

theorem filter_files_eq_nil {sections : List (Bucket × List Char)}
    (h : ∀ s ∈ sections, s.1 ≠ .files) : bucketLines sections .files = [] := by
  rw [bucketLines, List.map_eq_nil_iff, List.filter_eq_nil_iff]
  intro s hs heq
  exact h s hs (of_decide_eq_true heq)

theorem bucketLines_append (xs ys : List (Bucket × List Char)) (b : Bucket) :
    bucketLines (xs ++ ys) b = bucketLines xs b ++ bucketLines ys b := by
  rw [bucketLines, List.filter_append, List.map_append]
  rfl

/-- The lines of the section are the bullets, whatever stands around it. -/
theorem filesLines_write (frame : ReportFrame u) (entries : List FileEntry) :
    bucketLines (splitSections u .preamble (splitlines (frame.write u entries))) .files =
      entries.map FileEntry.bullet := by
  have hlines : ∀ line ∈ frame.before ++ filesHeading :: (entries.map FileEntry.bullet ++ frame.after),
      ∀ c ∈ line, lineBreak c = false := by
    intro line hline
    rw [List.mem_append, List.mem_cons, List.mem_append] at hline
    rcases hline with hline | rfl | hline | hline
    · exact frame.unbroken line (List.mem_append_left _ hline)
    · exact Numerals.forall_mem_of_all (by decide)
    · obtain ⟨b, -, rfl⟩ := List.mem_map.mp hline
      exact b.unbroken_bullet
    · exact frame.unbroken line (List.mem_append_right _ hline)
  have hbullets : bucketLines (entries.map fun b => (Bucket.files, b.bullet)) .files =
      entries.map FileEntry.bullet := by
    rw [bucketLines, List.filter_eq_self.mpr, List.map_map]
    · rfl
    · intro s hs
      obtain ⟨b, -, rfl⟩ := List.mem_map.mp hs
      rfl
  rw [ReportFrame.write, splitlines_textOf hlines, splitSections_append, bucketLines_append,
    filter_files_eq_nil frame.before_apart, List.nil_append, splitSections, sectionTitle_files]
  dsimp only
  rw [classifySection_files, splitSections_append, bucketLines_append, splitSections_bullets,
    openBucket_bullets, hbullets, filter_files_eq_nil frame.after_apart, List.append_nil]

/-! ## The change list -/

def CodeChange.entry (c : CodeChange) : String × ChangeType := (c.path, c.changeType)

/-- What is read of one entry. -/
theorem fileChange_entry (b : FileEntry) :
    (fileChange u b.bullet).map CodeChange.entry =
      if b.path = [] then none else some (String.ofList b.path, b.readType) := by
  have hblank : trimBy pySpace b.bullet ≠ [] := by
    intro hnil
    have hspace := trimBy_eq_nil_iff.mp hnil 'd' b.d_mem_bullet
    exact absurd hspace (by decide)
  have hkeep : ¬ (trimBy pySpace b.bullet = [] ∨ noneBullet b.bullet = true) := by
    rw [noneBullet_entry]
    simpa using hblank
  rw [fileChange, if_neg hkeep, fileBullet_entry]
  split_ifs with hempty
  · rfl
  · rw [Option.map_some, Option.map_some, CodeChange.entry, normalise_found]

/-- A path that was matched has no blanks to strip. -/
theorem entry_strip {c : CodeChange} (h : ∀ x ∈ c.path.toList, whiteSpace x = false) :
    c.strip.entry = c.entry := by
  rw [CodeChange.entry, CodeChange.entry, CodeChange.strip, stripText, trimBy_eq_self h,
    String.ofList_toList]

/-- The paths and change types of the parsed report, whether it is enriched or not. -/
theorem codeChanges_write (frame : ReportFrame u) (entries : List FileEntry) (ctx : ReportContext)
    (enrichment : Enrichment) :
    (parseV1Report u (frame.write u entries) ctx enrichment).codeChanges.map CodeChange.entry =
      entries.filterMap fun b =>
        if b.path = [] then none else some (String.ofList b.path, b.readType) := by
  have hread : ∀ f : CodeChange → String × ChangeType,
      (∀ b : FileEntry, ∀ c ∈ fileChange u b.bullet, f c = c.entry) →
      (extractFiles u (entries.map FileEntry.bullet)).map f = entries.filterMap fun b =>
        if b.path = [] then none else some (String.ofList b.path, b.readType) := by
    intro f hf
    rw [extractFiles, List.filterMap_map, List.map_filterMap]
    refine List.filterMap_congr fun b _ => ?_
    rw [← fileChange_entry u b, Function.comp_apply]
    exact Option.map_congr (hf b)
  have hstrip : ∀ b : FileEntry, ∀ c ∈ fileChange u b.bullet, c.strip.entry = c.entry := by
    intro b c hc
    have hentry := fileChange_entry u b
    rw [hc, Option.map_some] at hentry
    split_ifs at hentry with hempty
    · obtain ⟨hpath, -⟩ := Prod.mk.inj (Option.some.inj hentry)
      refine entry_strip fun x hx => ?_
      rw [show c.path = String.ofList b.path from hpath, String.toList_ofList] at hx
      exact space_of_whiteSpace (not_space_of_pathChar (pathChar_of_plain (b.plain x hx)))
  rw [parseV1Report]
  cases enrichment with
  | skipped =>
    rw [ParsedReport.enrich, filesLines_write]
    exact hread _ fun b c _ => rfl
  | filled kgImpact =>
    rw [ParsedReport.enrich, filesLines_write, List.map_map]
    exact hread _ hstrip

/-- A report is read back just when every entry has a path and every backquoted entry is a
modification. -/
theorem files_touched_read_iff (frame : ReportFrame u) (entries : List FileEntry)
    (ctx : ReportContext) (enrichment : Enrichment) :
    (parseV1Report u (frame.write u entries) ctx enrichment).codeChanges.map CodeChange.entry =
        entries.map (fun b => (String.ofList b.path, b.change.type)) ↔
      ∀ b ∈ entries, b.path ≠ [] ∧ (b.shape = .backquoted → b.change = .modified) := by
  rw [codeChanges_write, List.filterMap_eq_map_iff_forall_eq_some]
  refine forall₂_congr fun b _ => ?_
  by_cases hempty : b.path = []
  · simp [hempty]
  · rw [if_neg hempty, Option.some_inj, Prod.mk.injEq]
    unfold FileEntry.readType
    cases b.shape <;> cases b.change <;> simp [hempty, Change.type]

/-- A bullet of the second documented shape that names a new file. -/
def createdEntry : FileEntry where
  path := "a.ts".toList
  change := .created
  shape := .backquoted
  plain := Numerals.forall_mem_of_all (by decide)

theorem mapLower_ascii (s : List Char) (_ : ∀ c ∈ s, c.toNat < 128) :
    s.map Char.toLower = s.map Char.toLower := rfl

theorem mapUpper_ascii (s : List Char) (_ : ∀ c ∈ s, c.toNat < 128) :
    s.map Char.toUpper = s.map Char.toUpper := rfl

def asciiText : TextTables where
  toUnicodeTables := Audit.asciiTables
  lower := fun s => s.map Char.toLower
  upper := fun s => s.map Char.toUpper
  lower_ascii := mapLower_ascii
  upper_ascii := mapUpper_ascii

/-- A report with that section alone. -/
def bareFrame : ReportFrame asciiText where
  before := []
  after := []
  unbroken := fun line hline => absurd hline List.not_mem_nil
  before_apart := fun s hs => absurd hs List.not_mem_nil
  after_apart := fun s hs => absurd hs List.not_mem_nil

/-- The created file is read as a modified one. -/
theorem created_file_read_as_modified :
    ¬ ∀ (u : TextTables) (frame : ReportFrame u) (entries : List FileEntry) (ctx : ReportContext)
      (enrichment : Enrichment),
      (parseV1Report u (frame.write u entries) ctx enrichment).codeChanges.map CodeChange.entry =
        entries.map (fun b => (String.ofList b.path, b.change.type)) := by
  intro h
  have hread := h asciiText bareFrame [createdEntry] ⟨"engineer", "p", "d", "v"⟩ .skipped
  rw [codeChanges_write] at hread
  exact absurd hread (by decide)

end SpineFormal.Build
