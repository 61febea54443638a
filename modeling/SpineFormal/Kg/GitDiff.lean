import SpineFormal.Kg.FileWalk

/-!
# The changes between two commits

What `git diff --name-status` prints for the changes between two commits, and
what the indexer reads from it: the first letter of each line and its last
path. A path with a byte that is not printable ASCII is printed as a C string,
in quotation marks.
-/

namespace SpineFormal.Kg

open Numerals
set_option autoImplicit false

inductive Change where
  | added (path : String)
  | deleted (path : String)
  | modified (path : String)
  | renamed (score : Nat) (source target : String)
  | copied (score : Nat) (source target : String)

/-! ## The printed lines -/

def mustQuote (n : Nat) : Bool := decide (n < 0x20 ∨ n = 0x22 ∨ n = 0x5c ∨ 0x7f ≤ n)

def quoteByte (b : UInt8) : List Char :=
  match b with
  | 7 => ['\\', 'a']
  | 8 => ['\\', 'b']
  | 9 => ['\\', 't']
  | 10 => ['\\', 'n']
  | 11 => ['\\', 'v']
  | 12 => ['\\', 'f']
  | 13 => ['\\', 'r']
  | 34 => ['\\', '"']
  | 92 => ['\\', '\\']
  | b => if mustQuote b.toNat then '\\' :: fixed 8 3 b.toNat else [Char.ofNat b.toNat]

def unquoted (path : String) : Bool := path.toList.all fun c => !mustQuote c.toNat

/-- A path as git prints it with its default `core.quotePath`. -/
def gitPath (path : String) : List Char :=
  if unquoted path then path.toList
  else '"' :: ((encodeUtf8 path.toList).flatMap quoteByte ++ ['"'])

def Change.letter : Change → Char
  | .added _ => 'A'
  | .deleted _ => 'D'
  | .modified _ => 'M'
  | .renamed _ _ _ => 'R'
  | .copied _ _ _ => 'C'

/-- The path that is printed last. -/
def Change.target : Change → String
  | .added path => path
  | .deleted path => path
  | .modified path => path
  | .renamed _ _ target => target
  | .copied _ _ target => target

def Change.columns : Change → List (List Char)
  | .added path => [['A'], gitPath path]
  | .deleted path => [['D'], gitPath path]
  | .modified path => [['M'], gitPath path]
  | .renamed score source target => ['R' :: fixed 10 3 score, gitPath source, gitPath target]
  | .copied score source target => ['C' :: fixed 10 3 score, gitPath source, gitPath target]

def nameStatus (changes : List Change) : List Char :=
  changes.flatMap fun c => ['\t'].intercalate c.columns ++ ['\n']

/-- `parts[0][:1], parts[-1]` -/
def statusOf (parts : List (List Char)) : List Char × String :=
  ((parts.headD []).take 1, .ofList (parts.getLastD []))

def gitDiffNameStatus (out : List Char) : List (List Char × String) :=
  (splitlines out).map fun line => statusOf (line.splitOn '\t')

/-! ## Reading the lines back -/

def PrintableAscii (s : List Char) : Prop := ∀ c ∈ s, 0x20 ≤ c.toNat ∧ c.toNat < 0x7f

theorem PrintableAscii.lineBreak {s : List Char} (h : PrintableAscii s) :
    ∀ c ∈ s, lineBreak c = false := by
  intro c hc
  obtain ⟨hlo, hhi⟩ := h c hc
  simp only [SpineFormal.lineBreak, Bool.or_eq_false_iff, decide_eq_false_iff_not,
    List.contains_eq_mem, List.mem_cons, List.not_mem_nil, or_false]
  omega

theorem PrintableAscii.tab_notMem {s : List Char} (h : PrintableAscii s) : '\t' ∉ s :=
  fun htab => absurd (h _ htab).1 (by decide)

theorem PrintableAscii.nil : PrintableAscii [] := fun _ h => nomatch h

theorem PrintableAscii.cons {c : Char} {s : List Char} (hc : 0x20 ≤ c.toNat ∧ c.toNat < 0x7f)
    (hs : PrintableAscii s) : PrintableAscii (c :: s) := by
  intro d hd
  rcases List.mem_cons.mp hd with rfl | hd
  · exact hc
  · exact hs d hd

theorem printable_quoteByte (b : UInt8) : PrintableAscii (quoteByte b) := by
  unfold quoteByte
  split
  all_goals try exact .cons (by decide) (.cons (by decide) .nil)
  split
  · exact .cons (by decide) fun _ => fixed_range (by decide) (by decide)
  · rename_i hplain
    have hrange : ¬ (b.toNat < 0x20 ∨ b.toNat = 0x22 ∨ b.toNat = 0x5c ∨ 0x7f ≤ b.toNat) := by
      simpa [mustQuote] using hplain
    have hchars : ∀ n < 0x7f, 0x20 ≤ n →
        0x20 ≤ (Char.ofNat n).toNat ∧ (Char.ofNat n).toNat < 0x7f := by
      decide
    exact .cons (hchars b.toNat (by omega) (by omega)) .nil

theorem printable_gitPath (path : String) : PrintableAscii (gitPath path) := by
  unfold gitPath
  split
  · rename_i hplain
    intro c hc
    have hc := List.all_eq_true.mp hplain c hc
    simp only [mustQuote, Bool.not_eq_true', decide_eq_false_iff_not] at hc
    omega
  · apply PrintableAscii.cons (by decide)
    intro c hc
    rcases List.mem_append.mp hc with hc | hc
    · obtain ⟨b, _, hc⟩ := List.mem_flatMap.mp hc
      exact printable_quoteByte b c hc
    · rw [List.mem_singleton.mp hc]
      decide

/-- The columns of a line: a letter with digits after it, and paths, the last one the target. -/
theorem Change.columns_shape (c : Change) :
    ∃ digits sources, c.columns = (c.letter :: digits) :: (sources ++ [gitPath c.target]) ∧
      PrintableAscii (c.letter :: digits) ∧ ∀ path ∈ sources, PrintableAscii path := by
  cases c with
  | added path | deleted path | modified path =>
    exact ⟨[], [], rfl, .cons (by simp [letter]) .nil, fun _ h => nomatch h⟩
  | renamed score source target | copied score source target =>
    refine ⟨fixed 10 3 score, [gitPath source], rfl, ?_, ?_⟩
    · exact .cons (by simp [letter]) fun _ => fixed_range (by decide) (by decide)
    · intro path hpath
      rw [List.mem_singleton.mp hpath]
      exact printable_gitPath source

theorem Change.printable_columns (c : Change) : ∀ column ∈ c.columns, PrintableAscii column := by
  intro column hcolumn
  obtain ⟨digits, sources, heq, hstatus, hsources⟩ := c.columns_shape
  rw [heq] at hcolumn
  rcases List.mem_cons.mp hcolumn with rfl | hcolumn
  · exact hstatus
  · rcases List.mem_append.mp hcolumn with hcolumn | hcolumn
    · exact hsources column hcolumn
    · rw [List.mem_singleton.mp hcolumn]
      exact printable_gitPath c.target

theorem gitDiffNameStatus_nameStatus (changes : List Change) :
    gitDiffNameStatus (nameStatus changes) =
      changes.map fun c => ([c.letter], .ofList (gitPath c.target)) := by
  induction changes with
  | nil => rfl
  | cons c changes ih =>
    obtain ⟨digits, sources, heq, _⟩ := c.columns_shape
    have hbreaks : ∀ d ∈ ['\t'].intercalate c.columns, lineBreak d = false := by
      intro d hd
      rcases mem_intercalate hd with rfl | ⟨column, hcolumn, hd⟩
      · decide
      · exact (c.printable_columns column hcolumn).lineBreak d hd
    have hsplit : (['\t'].intercalate c.columns).splitOn '\t' = c.columns := by
      apply List.splitOn_intercalate
      · intro column hcolumn
        exact (c.printable_columns column hcolumn).tab_notMem
      · rw [heq]
        exact List.cons_ne_nil _ _
    have hline : nameStatus (c :: changes) =
        ['\t'].intercalate c.columns ++ '\n' :: nameStatus changes := by
      simp [nameStatus]
    have hstatus : statusOf c.columns = ([c.letter], .ofList (gitPath c.target)) := by
      rw [heq, statusOf, ← List.cons_append, List.getLastD_eq_getLast?, List.getLast?_concat]
      rfl
    rw [gitDiffNameStatus, hline, splitlines_line hbreaks, List.map_cons, List.map_cons, hsplit,
      hstatus, ← ih]
    rfl

theorem pickExtractor_gitPath (path : String) :
    pickExtractor (.ofList (gitPath path)) =
      if unquoted path then pickExtractor path else none := by
  unfold gitPath
  split
  · rw [String.ofList_toList]
  · rw [← List.cons_append]
    exact pickExtractor_quoted _

/-! ## Histories -/

/-- What is reported of the files of two commits: a line for each path, where a rename accounts
for its source. -/
structure Reports (before after : Tree) (changes : List Change) : Prop where
  added : ∀ path, .added path ∈ changes → path ∉ before.paths ∧ path ∈ after.paths
  deleted : ∀ path, .deleted path ∈ changes → path ∈ before.paths ∧ path ∉ after.paths
  modified : ∀ path, .modified path ∈ changes → path ∈ before.paths ∧ path ∈ after.paths
  renamed : ∀ score source target, .renamed score source target ∈ changes →
    (source ∈ before.paths ∧ source ∉ after.paths) ∧ target ∉ before.paths ∧ target ∈ after.paths
  copied : ∀ score source target, .copied score source target ∈ changes →
    source ∈ before.paths ∧ target ∉ before.paths ∧ target ∈ after.paths
  appears : ∀ path ∈ after.paths, path ∉ before.paths →
    ∃ c ∈ changes, c.letter ≠ 'D' ∧ c.target = path
  vanishes : ∀ path ∈ before.paths, path ∉ after.paths →
    .deleted path ∈ changes ∨ ∃ score target, .renamed score path target ∈ changes
  once : ∀ score source target, .renamed score source target ∈ changes →
    .deleted source ∉ changes
  single : (changes.map Change.target).Nodup

/-- A repository: the files of each commit, and what git reports between any two. -/
structure History where
  tree : String → Tree
  changes : String → String → List Change
  reports : ∀ base head, Reports (tree base) (tree head) (changes base head)
  unchanged : ∀ head, changes head head = []

theorem Change.eq_deleted {c : Change} (h : c.letter = 'D') : c = .deleted c.target := by
  cases c with
  | deleted path => rfl
  | added | modified | renamed | copied => cases h

theorem Reports.target_after {before after : Tree} {changes : List Change}
    (h : Reports before after changes) {c : Change} (hc : c ∈ changes) (hletter : c.letter ≠ 'D') :
    c.target ∈ after.paths := by
  cases c with
  | added path => exact (h.added path hc).2
  | deleted path => exact absurd rfl hletter
  | modified path => exact (h.modified path hc).2
  | renamed score source target => exact (h.renamed score source target hc).2.2
  | copied score source target => exact (h.copied score source target hc).2.2

end SpineFormal.Kg
