import SpineFormal.Base.RegexFirst
import SpineFormal.Base.LineFile

/-!
# The files in an engineer's reply

The engineer answers with an introduction, one marked block for each file and a block of
commands. The files are read off the reply with a pattern over several lines, of which the
marks are a part.
-/

namespace SpineFormal.Hub.Engineer

open Re
set_option autoImplicit false

/-! ## The patterns -/

def bar : List Char := "=====".toList

def spaces : Regex := atLeast 0 pySpace

theorem space_one : ∀ c ∈ [' '], pySpace c = true := List.forall_mem_singleton.mpr (by decide)

theorem line_one : ∀ c ∈ ['\n'], pySpace c = true := List.forall_mem_singleton.mpr (by decide)

/-- `[^\s=]`. -/
def pathChar (c : Char) : Bool := !pySpace c && c ≠ '='

/-- A block between two marked lines; the first one holds the group that is captured. -/
structure MarkedBlock where
  opening : Regex
  captured : Regex
  closing : Regex
  fin : Regex

/-- `_FILE_BLOCK_RE`. -/
def fileBlockRe : MarkedBlock where
  opening := seqs [lit bar, spaces, lit "FILE:".toList, spaces]
  captured := atLeast 1 pathChar
  closing := seqs [spaces, lit bar, spaces]
  fin := seqs [lit bar, spaces, lit "END FILE".toList, spaces, lit bar, spaces]

/-- `_RUN_BLOCK_RE`. -/
def runBlockRe : MarkedBlock where
  opening := seqs [lit bar, spaces, lit "RUN".toList]
  captured := .eps
  closing := seqs [spaces, lit bar, spaces]
  fin := seqs [lit bar, spaces, lit "END RUN".toList, spaces, lit bar, spaces]

/-- `$`, where every line end counts. -/
def lineEnd : List Char → Bool
  | [] => true
  | c :: _ => c = '\n'

namespace MarkedBlock

variable (m : MarkedBlock)

/-- What is left after the closing mark when it stands at the front. -/
def endsAt (s : List Char) : Option (List Char) :=
  m.fin.first s fun _ t => if lineEnd t then some t else none

/-- `(.*?)^` and the closing mark: the shortest text, and what is left after the mark. -/
def body (lineStart : Bool) : List Char → Option (List Char × List Char)
  | [] => if lineStart then (m.endsAt []).map fun rest => ([], rest) else none
  | c :: s =>
    match (if lineStart then m.endsAt (c :: s) else none) with
    | some rest => some ([], rest)
    | none => (body (c = '\n') s).map fun q => (c :: q.1, q.2)

/-- The pattern at a line start: the group, the text and what is left. The text begins at a
line end, where no mark stands. -/
def matchAt (s : List Char) : Option (List Char × List Char × List Char) :=
  m.opening.first s fun _ t => m.captured.first t fun w t => m.closing.first t fun _ t =>
    if lineEnd t then (m.body false t).map fun q => (w, q.1, q.2) else none

/-- `finditer`, with the number of characters that the last match still covers. -/
def scan : Nat → Bool → List Char → List (List Char × List Char)
  | _, _, [] => []
  | skip + 1, _, c :: s => scan skip (c = '\n') s
  | 0, lineStart, c :: s =>
    match (if lineStart then m.matchAt (c :: s) else none) with
    | some (w, content, rest) => (w, content) :: scan (s.length - rest.length) (c = '\n') s
    | none => scan 0 (c = '\n') s

end MarkedBlock

/-! ## Parsing -/

def stripFirst : List Char → List Char
  | [] => []
  | c :: s => if c = '\n' then s else c :: s

def stripLast (s : List Char) : List Char := if s.getLast? = some '\n' then s.dropLast else s

/-- `".." in path.split("/") or path.startswith("/")`. -/
def traversal (path : List Char) : Bool :=
  (path.splitOn '/').contains "..".toList || path.head? = some '/'

/-- What is kept of a match of `_FILE_BLOCK_RE`. -/
def keepFile (q : List Char × List Char) : Option (List Char × List Char) :=
  let path := trimBy pySpace q.1
  if traversal path then none else some (path, stripLast (stripFirst q.2))

/-- `text[:text.find(mark)]`, when the mark is there. -/
def before (mark : List Char) : List Char → Option (List Char)
  | [] => if mark = [] then some [] else none
  | c :: s => if mark.isPrefixOf (c :: s) then some [] else (before mark s).map (c :: ·)

structure EngineerOutput where
  intro : List Char
  files : List (List Char × List Char)
  runBlock : List Char

/-- `_parse_engineer_output`. -/
def parseEngineerOutput (text : List Char) : EngineerOutput where
  intro := trimBy pySpace ((before "===== FILE:".toList text).getD text)
  files := (fileBlockRe.scan 0 true text).filterMap keepFile
  runBlock :=
    match (runBlockRe.scan 0 true text).head? with
    | some q => trimBy pySpace q.2
    | none => []

/-! ## The documented format -/

def openFile : List Char := "===== FILE: ".toList

def openEnd : List Char := " =====".toList

def endFile : List Char := "===== END FILE =====".toList

def renderFile (f : List Char × List Char) : List Char :=
  openFile ++ f.1 ++ openEnd ++ '\n' :: (f.2 ++ '\n' :: (endFile ++ ['\n']))

def openRun : List Char := "===== RUN =====".toList

def endRun : List Char := "===== END RUN =====".toList

def renderRun (run : List Char) : List Char := openRun ++ '\n' :: (run ++ '\n' :: endRun)

/-- An introduction, a block for each file, and the commands where there are any. -/
def renderOutput (intro : List Char) (files : List (List Char × List Char))
    (run : Option (List Char)) : List Char :=
  intro ++ '\n' :: (files.flatMap renderFile ++ (run.map renderRun).getD [])

/-! ## The closing mark -/

/-- No line of the text begins with the bar. -/
def barless : Bool → List Char → Bool
  | _, [] => true
  | lineStart, c :: s => !(lineStart && bar.isPrefixOf (c :: s)) && barless (c = '\n') s

theorem isSome_endsAt (m : MarkedBlock) (s : List Char) :
    (m.endsAt s).isSome = true ↔ ∃ w t, s = w ++ t ∧ Spells m.fin w ∧ lineEnd t = true := by
  constructor
  · intro h
    obtain ⟨x, hx⟩ := Option.isSome_iff_exists.mp h
    obtain ⟨w, t, hs, hw, hk⟩ := first_eq_some hx
    refine ⟨w, t, hs, hw, ?_⟩
    by_contra hend
    rw [if_neg hend] at hk
    cases hk
  · rintro ⟨w, t, hs, hw, hend⟩
    apply isSome_first hs hw
    rw [if_pos hend]
    rfl

theorem spells_seqs_cons {r : Regex} {rs : List Regex} {w : List Char} :
    Spells (seqs (r :: rs)) w ↔ ∃ u v, w = u ++ v ∧ Spells r u ∧ Spells (seqs rs) v := by
  constructor
  · intro h
    cases h with
    | seq hu hv => exact ⟨_, _, rfl, hu, hv⟩
  · rintro ⟨u, v, rfl, hu, hv⟩
    exact .seq hu hv

theorem spells_seqs_nil {w : List Char} : Spells (seqs []) w ↔ w = [] := by
  constructor
  · intro h
    cases h
    rfl
  · rintro rfl
    exact .eps

theorem spells_spaces {w : List Char} : Spells spaces w ↔ ∀ c ∈ w, pySpace c = true :=
  ⟨forall_of_atLeast, spells_many⟩

theorem spells_fin {w : List Char} : Spells fileBlockRe.fin w ↔ ∃ x y z : List Char,
    w = bar ++ (x ++ ("END FILE".toList ++ (y ++ (bar ++ z)))) ∧ (∀ c ∈ x, pySpace c = true) ∧
      (∀ c ∈ y, pySpace c = true) ∧ ∀ c ∈ z, pySpace c = true := by
  simp only [fileBlockRe, spells_seqs_cons, spells_seqs_nil, spells_lit, spells_spaces]
  constructor
  · rintro ⟨_, _, rfl, rfl, x, _, rfl, hx, _, _, rfl, rfl, y, _, rfl, hy, _, _, rfl, rfl, z, _, rfl,
      hz, rfl⟩
    exact ⟨x, y, z, by rw [List.append_nil], hx, hy, hz⟩
  · rintro ⟨x, y, z, rfl, hx, hy, hz⟩
    exact ⟨_, _, rfl, rfl, x, _, rfl, hx, _, _, rfl, rfl, y, _, rfl, hy, _, _, rfl, rfl, z, [],
      by rw [List.append_nil], hz, rfl⟩

/-- Past a bar and a text without one, no line begins with an equals sign. -/
theorem bar_append_ne {b : List Char} (hb : '=' ∉ b) (v a : List Char) :
    bar ++ b ≠ v ++ '\n' :: '=' :: a := by
  intro h
  rcases List.append_eq_append_iff.mp h with ⟨v', rfl, hrest⟩ | ⟨b', hbar, hrest⟩
  · apply hb
    rw [hrest]
    simp
  · cases b' with
    | nil =>
      rw [List.nil_append] at hrest
      apply hb
      rw [← hrest]
      simp
    | cons c b' =>
      obtain ⟨rfl, -⟩ := List.cons.inj hrest
      have hmem : '\n' ∈ bar := by
        rw [hbar]
        simp
      exact absurd hmem (by decide)

theorem eq_notMem_of_space {w : List Char} (h : ∀ c ∈ w, pySpace c = true) : '=' ∉ w :=
  fun hmem => absurd (h _ hmem) (by decide)

/-- A closing mark that reaches over a line end into the real one would end before its words. -/
theorem fin_not_across {v w t r : List Char} (hw : Spells fileBlockRe.fin (v ++ '\n' :: '=' :: w))
    (ht : '=' :: (w ++ t) = endFile ++ r) : lineEnd t = false := by
  obtain ⟨x, y, z, heq, hx, hy, hz⟩ := spells_fin.mp hw
  have hmiddle : '=' ∉ x ++ ("END FILE".toList ++ y) := by
    simp only [List.mem_append, not_or]
    exact ⟨eq_notMem_of_space hx, by decide, eq_notMem_of_space hy⟩
  have hassoc : bar ++ (x ++ ("END FILE".toList ++ (y ++ (bar ++ z)))) =
      (bar ++ (x ++ ("END FILE".toList ++ y))) ++ (bar ++ z) := by
    simp only [List.append_assoc]
  rw [hassoc] at heq
  rcases List.append_eq_append_iff.mp heq with ⟨v', hv, hrest⟩ | ⟨v', rfl, hrest⟩
  · cases v' with
    | nil => cases hrest
    | cons c v' =>
      obtain ⟨rfl, htail⟩ := List.cons.inj hrest
      cases v' with
      | nil =>
        -- The second bar begins the line, and what follows it in the real mark is no line end.
        have hbar : bar ++ (z ++ t) = bar ++ (" END FILE =====".toList ++ r) := by
          have hw' : '=' :: w = bar ++ z := htail
          rw [← List.append_assoc, ← hw']
          exact ht
        have hz' : z ++ t = ' ' :: 'E' :: ("ND FILE =====".toList ++ r) :=
          List.append_cancel_left hbar
        rcases z with - | ⟨c, - | ⟨d, z⟩⟩
        · rw [List.nil_append] at hz'
          rw [hz']
          rfl
        · have ht' : t = 'E' :: ("ND FILE =====".toList ++ r) := (List.cons.inj hz').2
          rw [ht']
          rfl
        · obtain ⟨-, hd⟩ := List.cons.inj hz'
          obtain ⟨rfl, -⟩ := List.cons.inj hd
          exact absurd (hz 'E' (by simp)) (by decide)
      | cons d v' =>
        obtain ⟨rfl, -⟩ := List.cons.inj htail
        exact absurd hv (bar_append_ne hmiddle v v')
  · exact absurd hrest (bar_append_ne (eq_notMem_of_space hz) v' w)

/-- The line end that a closing mark takes can be left out. -/
theorem spells_fin_of_newline {v : List Char} (h : Spells fileBlockRe.fin (v ++ ['\n'])) :
    Spells fileBlockRe.fin v := by
  obtain ⟨x, y, z, heq, hx, hy, hz⟩ := spells_fin.mp h
  obtain rfl | ⟨z', c, rfl⟩ := z.eq_nil_or_concat
  · have hlast := congrArg List.getLast? heq
    rw [← List.append_assoc, ← List.append_assoc, ← List.append_assoc, List.append_nil] at hlast
    rw [List.getLast?_concat, List.getLast?_append_of_ne_nil _ (by decide)] at hlast
    exact absurd hlast (by decide)
  · have heq' : v ++ ['\n'] =
        (bar ++ (x ++ ("END FILE".toList ++ (y ++ (bar ++ z'))))) ++ [c] := by
      rw [heq]
      simp only [List.append_assoc, List.concat_eq_append]
    obtain ⟨rfl, -⟩ := List.append_inj' heq' rfl
    apply spells_fin.mpr
    refine ⟨x, y, z', rfl, hx, hy, ?_⟩
    intro d hd
    exact hz d (by simp [hd])

/-- Whether the mark closes a block in a text does not depend on the real mark on the next line. -/
theorem isSome_endsAt_append (v r : List Char) :
    (fileBlockRe.endsAt (v ++ '\n' :: (endFile ++ r))).isSome = (fileBlockRe.endsAt v).isSome := by
  rw [Bool.eq_iff_iff, isSome_endsAt, isSome_endsAt]
  constructor
  · rintro ⟨w, t, hs, hw, hend⟩
    rcases List.append_eq_append_iff.mp hs with ⟨w', rfl, hrest⟩ | ⟨t', rfl, hrest⟩
    · cases w' with
      | nil => exact ⟨v, [], by simp, by simpa using hw, rfl⟩
      | cons c w' =>
        obtain ⟨rfl, htail⟩ := List.cons.inj hrest
        cases w' with
        | nil => exact ⟨v, [], by simp, spells_fin_of_newline hw, rfl⟩
        | cons d w' =>
          obtain ⟨rfl, -⟩ := List.cons.inj htail
          rw [fin_not_across hw htail.symm] at hend
          cases hend
    · refine ⟨w, t', rfl, hw, ?_⟩
      cases t' with
      | nil => rfl
      | cons c t' =>
        rw [hrest] at hend
        exact hend
  · rintro ⟨w, t, rfl, hw, hend⟩
    refine ⟨w, t ++ '\n' :: (endFile ++ r), List.append_assoc _ _ _, hw, ?_⟩
    cases t with
    | nil => rfl
    | cons c t => exact hend

/-! ## The text of a block -/

/-- The closing mark, over any number of lines, begins no line of the text. -/
def unmarked : Bool → List Char → Bool
  | _, [] => true
  | lineStart, c :: s =>
    !(lineStart && (fileBlockRe.endsAt (c :: s)).isSome) && unmarked (c = '\n') s

theorem endsAt_of_not_bar {s : List Char} (h : ¬ bar <+: s) : fileBlockRe.endsAt s = none := by
  have hfin : fileBlockRe.fin =
      .seq (lit bar) (seqs [spaces, lit "END FILE".toList, spaces, lit bar, spaces]) := rfl
  rw [MarkedBlock.endsAt, hfin, first_seq, first_lit_none h]

/-- A run of space before a literal is taken whole. -/
theorem first_spaces_lit {α : Type} {w l t : List Char} {d : Char} (r : Regex)
    (k : List Char → List Char → Option α) (hw : ∀ c ∈ w, pySpace c = true)
    (hd : pySpace d = false) :
    Regex.first (.seq spaces (.seq (lit (d :: l)) r)) (w ++ (d :: l ++ t)) k =
      r.first t fun v u => k (w ++ (d :: l ++ v)) u := by
  have hblocked : ∀ u c v, pySpace c = true → Regex.first (.seq (lit (d :: l)) r) (c :: v)
      (fun v' u' => k (u ++ v') u') = none := by
    intro u c v hc
    rw [first_seq, first_lit_none]
    intro hpre
    obtain ⟨rfl, -⟩ := List.cons_prefix_cons.mp hpre
    rw [hc] at hd
    cases hd
  rw [first_seq, spaces, first_many_all hw _ hblocked, first_seq, first_lit]
  intro c hc
  obtain rfl : d = c := Option.some.inj hc
  exact hd

/-- `\s*$` takes the blank lines up to the last line end before other text. -/
theorem first_spaces_lineEnd {α : Type} {a b t : List Char} {d : Char}
    {k : List Char → List Char → Option α} {x : α} (ha : ∀ c ∈ a, pySpace c = true)
    (hb : ∀ c ∈ b, pySpace c = true) (hlast : '\n' ∉ b) (hd : pySpace d = false)
    (hk : k a ('\n' :: b ++ d :: t) = some x) :
    (Regex.seq spaces .eps).first (a ++ ('\n' :: b ++ d :: t))
      (fun w s => if lineEnd s then k w s else none) = some x := by
  rw [first_seq]
  simp only [first_eps, List.append_nil]
  have hline : ∀ c ∈ '\n' :: b, pySpace c = true := List.forall_mem_cons.mpr ⟨by decide, hb⟩
  refine first_many_last ha hline ?_ ?_ ((if_pos rfl).trans hk)
  · intro c hc
    obtain rfl : d = c := Option.some.inj hc
    exact hd
  · intro u v huv hu
    have hend : lineEnd (v ++ d :: t) = false := by
      cases u with
      | nil => exact absurd rfl hu
      | cons c u =>
        obtain ⟨-, rfl⟩ := List.cons.inj huv
        cases v with
        | nil =>
          apply decide_eq_false
          rintro rfl
          exact absurd hd (by decide)
        | cons e v =>
          apply decide_eq_false
          rintro rfl
          exact hlast (by simp)
    rw [hend]
    rfl

/-- What follows a mark on its line is a line end, and the next line is not blank. -/
theorem endsAt_endFile {r : List Char} (hr : ∀ c ∈ r.head?, pySpace c = false) :
    ∃ rest, fileBlockRe.endsAt (endFile ++ '\n' :: r) = some rest ∧
      (rest = '\n' :: r ∨ rest = [] ∧ r = []) := by
  have htext : endFile ++ '\n' :: r =
      bar ++ ([' '] ++ ('E' :: "ND FILE".toList ++
        ([' '] ++ ('=' :: "====".toList ++ '\n' :: r)))) :=
    rfl
  have hfirst : fileBlockRe.endsAt (endFile ++ '\n' :: r) =
      (Regex.seq spaces .eps).first ('\n' :: r) fun _ t => if lineEnd t then some t else none := by
    rw [MarkedBlock.endsAt, htext]
    change (Regex.seq (lit bar) (.seq spaces (.seq (lit ('E' :: "ND FILE".toList)) (.seq spaces
      (.seq (lit ('=' :: "====".toList)) (.seq spaces .eps)))))).first _ _ = _
    rw [first_seq, first_lit, first_spaces_lit _ _ space_one (by decide),
      first_spaces_lit _ _ space_one (by decide)]
  rw [hfirst]
  cases r with
  | nil =>
    refine ⟨[], ?_, Or.inr ⟨rfl, rfl⟩⟩
    rw [first_seq]
    exact first_many_last (a := ['\n']) (b := []) (t := []) line_one (by simp) (by simp)
      (fun u v h hu => absurd (List.append_eq_nil_iff.mp h.symm).1 hu) rfl
  | cons c r =>
    refine ⟨'\n' :: c :: r, ?_, Or.inl rfl⟩
    exact first_spaces_lineEnd (a := []) (b := []) (by simp) (by simp) (by simp) (hr c rfl) rfl

theorem body_cons {lineStart : Bool} {c : Char} {s : List Char}
    (h : ¬ (lineStart = true ∧ (fileBlockRe.endsAt (c :: s)).isSome = true)) :
    fileBlockRe.body lineStart (c :: s) =
      (fileBlockRe.body (c = '\n') s).map fun q => (c :: q.1, q.2) := by
  have hnone : (if lineStart = true then fileBlockRe.endsAt (c :: s) else none) = none := by
    split_ifs with hline
    · exact Option.not_isSome_iff_eq_none.mp fun hsome => h ⟨hline, hsome⟩
    · rfl
  rw [MarkedBlock.body, hnone]

theorem not_bar_newline (s : List Char) : ¬ bar <+: '\n' :: s := by
  intro h
  exact absurd (List.cons_prefix_cons.mp h).1 (by decide)

theorem body_marked {lineStart : Bool} {c : List Char} (r : List Char)
    (h : unmarked lineStart c = false) :
    ∃ u rest, fileBlockRe.body lineStart (c ++ '\n' :: (endFile ++ '\n' :: r)) = some (u, rest) ∧
      u.length < c.length := by
  induction c generalizing lineStart with
  | nil => cases h
  | cons d c ih =>
    by_cases hends : lineStart = true ∧
        (fileBlockRe.endsAt (d :: (c ++ '\n' :: (endFile ++ '\n' :: r)))).isSome = true
    · obtain ⟨rest, hrest⟩ := Option.isSome_iff_exists.mp hends.2
      refine ⟨[], rest, ?_, Nat.zero_lt_succ _⟩
      rw [List.cons_append, MarkedBlock.body, if_pos hends.1, hrest]
    · have hc : unmarked (d = '\n') c = false := by
        rw [unmarked, Bool.and_eq_false_iff] at h
        rcases h with h' | h'
        · rw [Bool.not_eq_false', Bool.and_eq_true, ← isSome_endsAt_append _ ('\n' :: r)] at h'
          exact absurd h' hends
        · exact h'
      obtain ⟨u, rest, hbody, hlt⟩ := ih hc
      refine ⟨d :: u, rest, ?_, Nat.succ_lt_succ hlt⟩
      rw [List.cons_append, body_cons hends, hbody]
      rfl

section Body

variable {r : List Char} (hr : ∀ c ∈ r.head?, pySpace c = false)
include hr

/-- The text up to the line end before the closing mark. -/
theorem body_endFile : ∃ rest, (∀ lineStart,
      fileBlockRe.body lineStart ('\n' :: (endFile ++ '\n' :: r)) = some (['\n'], rest)) ∧
    (rest = '\n' :: r ∨ rest = [] ∧ r = []) := by
  obtain ⟨rest, hrest, hleft⟩ := endsAt_endFile hr
  refine ⟨rest, ?_, hleft⟩
  intro lineStart
  have hnone : ¬ (lineStart = true ∧
      (fileBlockRe.endsAt ('\n' :: (endFile ++ '\n' :: r))).isSome = true) := by
    rw [endsAt_of_not_bar (not_bar_newline _)]
    simp
  have htext : endFile ++ '\n' :: r = '=' :: ("==== END FILE =====".toList ++ '\n' :: r) := rfl
  rw [body_cons hnone, htext, MarkedBlock.body]
  rw [htext] at hrest
  simp only [decide_true, if_true, hrest, Option.map_some]

theorem body_unmarked {lineStart : Bool} {c : List Char} (h : unmarked lineStart c = true) :
    ∃ rest, fileBlockRe.body lineStart (c ++ '\n' :: (endFile ++ '\n' :: r)) =
        some (c ++ ['\n'], rest) ∧ (rest = '\n' :: r ∨ rest = [] ∧ r = []) := by
  induction c generalizing lineStart with
  | nil =>
    obtain ⟨rest, hbody, hleft⟩ := body_endFile hr
    exact ⟨rest, hbody lineStart, hleft⟩
  | cons d c ih =>
    rw [unmarked, Bool.and_eq_true, Bool.not_eq_true', Bool.and_eq_false_iff] at h
    obtain ⟨rest, hbody, hleft⟩ := ih h.2
    have hnone : ¬ (lineStart = true ∧
        (fileBlockRe.endsAt (d :: (c ++ '\n' :: (endFile ++ '\n' :: r)))).isSome = true) := by
      rw [← List.cons_append, isSome_endsAt_append]
      rintro ⟨hline, hsome⟩
      rcases h.1 with h' | h'
      · rw [hline] at h'
        cases h'
      · rw [hsome] at h'
        cases h'
    refine ⟨rest, ?_, hleft⟩
    rw [List.cons_append, body_cons hnone, hbody]
    rfl

end Body

/-! ## The opening mark -/

def Clean (path : List Char) : Prop := (∀ c ∈ path, pathChar c = true) ∧ traversal path = false

instance (path : List Char) : Decidable (Clean path) :=
  decidable_of_iff (path.all pathChar = true ∧ traversal path = false)
    (and_congr_left' List.all_eq_true)

theorem pathChar_iff (c : Char) : pathChar c = true ↔ pySpace c = false ∧ c ≠ '=' := by
  simp [pathChar]

/-- On a rendered block the pattern captures the path and goes on after the bar. -/
theorem matchAt_header {path : List Char} (hne : path ≠ [])
    (hpath : ∀ c ∈ path, pathChar c = true) (s : List Char) :
    fileBlockRe.matchAt (openFile ++ (path ++ (openEnd ++ s))) =
      (Regex.seq spaces .eps).first s fun _ t =>
        if lineEnd t then (fileBlockRe.body false t).map fun q => (path, q.1, q.2) else none := by
  have htext : openFile ++ (path ++ (openEnd ++ s)) =
      bar ++ ([' '] ++ ('F' :: "ILE:".toList ++
        ([' '] ++ (path ++ ([' '] ++ ('=' :: "====".toList ++ s)))))) := rfl
  have hopening : fileBlockRe.opening =
      .seq (lit bar) (.seq spaces (.seq (lit ('F' :: "ILE:".toList)) (.seq spaces .eps))) := rfl
  have hclosing : fileBlockRe.closing =
      .seq spaces (.seq (lit ('=' :: "====".toList)) (.seq spaces .eps)) := rfl
  have hcaptured : fileBlockRe.captured = atLeast 1 pathChar := rfl
  rw [MarkedBlock.matchAt, htext, hopening, first_seq, first_lit,
    first_spaces_lit _ _ space_one (by decide), first_seq]
  simp only [first_eps, hcaptured]
  rw [spaces, first_many_all space_one]
  · rw [first_some_all hne hpath, hclosing]
    · exact first_spaces_lit _ _ space_one (by decide)
    · intro c hc
      obtain rfl : ' ' = c := Option.some.inj hc
      decide
    · intro u c v hc
      obtain ⟨hc, hbar⟩ := (pathChar_iff c).mp hc
      rw [hclosing, first_seq, spaces, first_many_stop hc, first_seq, first_lit_none]
      intro hpre
      exact hbar (List.cons_prefix_cons.mp hpre).1.symm
  · intro c hc
    obtain ⟨d, path', rfl⟩ := List.exists_cons_of_ne_nil hne
    obtain rfl : d = c := Option.some.inj hc
    exact ((pathChar_iff d).mp (hpath d (by simp))).1
  · intro u c v hc
    exact first_some_stop (by simp [pathChar, hc]) v _

/-! ## One block -/

def blankStart (c : List Char) : Bool := (c.takeWhile fun d => d ≠ '\n').all pySpace

/-- The text is empty, or its first line is not blank and nothing in it closes the block. -/
def Survives (c : List Char) : Prop := c = [] ∨ blankStart c = false ∧ unmarked true c = true

instance (c : List Char) : Decidable (Survives c) := inferInstanceAs (Decidable (_ ∨ _))

theorem blankStart_of_space {c : List Char} (h : ∀ d ∈ c, pySpace d = true) :
    blankStart c = true := by
  apply List.all_eq_true.mpr
  intro d hd
  exact h d ((List.takeWhile_sublist _).subset hd)

theorem blankStart_cons (x : Char) (c : List Char) :
    blankStart (x :: c) = (decide (x = '\n') || pySpace x && blankStart c) := by
  rw [blankStart, List.takeWhile_cons]
  by_cases hx : x = '\n'
  · simp [hx]
  · simp [hx, blankStart]

/-- The blank lines at the front of a text, up to a line with something on it. -/
theorem exists_first_line {c : List Char} (h : ¬ ∀ d ∈ c, pySpace d = true) :
    ∃ a b d e, '\n' :: c = a ++ '\n' :: (b ++ d :: e) ∧ (∀ x ∈ a, pySpace x = true) ∧
      (∀ x ∈ b, pySpace x = true) ∧ '\n' ∉ b ∧ pySpace d = false ∧
      (a = [] ↔ blankStart c = false) := by
  induction c with
  | nil => exact absurd (fun d hd => absurd hd List.not_mem_nil) h
  | cons x c ih =>
    by_cases hx : pySpace x = true
    · have hc : ¬ ∀ d ∈ c, pySpace d = true := fun hall => h (List.forall_mem_cons.mpr ⟨hx, hall⟩)
      obtain ⟨a, b, d, e, heq, ha, hb, hline, hd, hiff⟩ := ih hc
      cases a with
      | nil =>
        obtain ⟨-, rfl⟩ := List.cons.inj heq
        by_cases hxn : x = '\n'
        · obtain rfl := hxn
          refine ⟨['\n'], b, d, e, rfl, line_one, hb, hline, hd, ?_⟩
          simp [blankStart_cons]
        · refine ⟨[], x :: b, d, e, rfl, by simp, List.forall_mem_cons.mpr ⟨hx, hb⟩, ?_, hd, ?_⟩
          · exact List.not_mem_cons_of_ne_of_not_mem (Ne.symm hxn) hline
          · simp [blankStart_cons, hxn, hx, hiff.mp rfl]
      | cons y a =>
        obtain ⟨rfl, rfl⟩ := List.cons.inj heq
        have hblank : blankStart (a ++ '\n' :: (b ++ d :: e)) = true := by
          by_contra hfalse
          cases hiff.mpr (Bool.eq_false_iff.mpr hfalse)
        have ha' : ∀ z ∈ '\n' :: x :: a, pySpace z = true := by
          obtain ⟨hn, ha⟩ := List.forall_mem_cons.mp ha
          exact List.forall_mem_cons.mpr ⟨hn, List.forall_mem_cons.mpr ⟨hx, ha⟩⟩
        refine ⟨'\n' :: x :: a, b, d, e, rfl, ha', hb, hline, hd, ?_⟩
        rw [blankStart_cons, hx, List.append_eq, hblank]
        simp
    · have hxf : pySpace x = false := Bool.eq_false_iff.mpr hx
      refine ⟨[], [], x, c, rfl, by simp, by simp, by simp, hxf, ?_⟩
      have hxn : x ≠ '\n' := by
        rintro rfl
        exact hx (by decide)
      simp [blankStart_cons, hxn, hxf]

theorem stripLast_concat (c : List Char) : stripLast (c ++ ['\n']) = c := by
  rw [stripLast, if_pos List.getLast?_concat, List.dropLast_concat]

theorem length_stripLast_le (u : List Char) : (stripLast u).length ≤ u.length := by
  rw [stripLast]
  split_ifs
  · rw [List.length_dropLast]
    omega
  · exact Nat.le_refl _

section Block

variable {path r : List Char} (hne : path ≠ []) (hpath : ∀ c ∈ path, pathChar c = true)
  (hr : ∀ c ∈ r.head?, pySpace c = false)

theorem renderFile_append (c : List Char) : renderFile (path, c) ++ r =
    openFile ++ (path ++ (openEnd ++ '\n' :: (c ++ '\n' :: (endFile ++ '\n' :: r)))) := by
  simp only [renderFile, List.append_assoc, List.cons_append, List.nil_append]

include hne hpath in
/-- Blank lines before `'\n' :: b` are lost, and the text that is captured begins after them. -/
theorem matchAt_blank {s a b e : List Char} {d : Char} {content rest : List Char}
    (hs : '\n' :: s = a ++ '\n' :: (b ++ d :: e)) (ha : ∀ x ∈ a, pySpace x = true)
    (hb : ∀ x ∈ b, pySpace x = true) (hline : '\n' ∉ b) (hd : pySpace d = false)
    (hbody : fileBlockRe.body false ('\n' :: (b ++ d :: e)) = some (content, rest)) :
    fileBlockRe.matchAt (openFile ++ (path ++ (openEnd ++ '\n' :: s))) =
      some (path, content, rest) := by
  rw [matchAt_header hne hpath, hs]
  apply first_spaces_lineEnd ha hb hline hd
  rw [List.cons_append, hbody]
  rfl

include hne hpath hr in
/-- What is captured of a block is its text exactly when the text survives. -/
theorem matchAt_renderFile (c : List Char) : ∃ b rest,
    fileBlockRe.matchAt (renderFile (path, c) ++ r) = some (path, b, rest) ∧
      (stripLast (stripFirst b) = c ↔ Survives c) ∧
      (Survives c → rest = '\n' :: r ∨ rest = [] ∧ r = []) := by
  rw [renderFile_append]
  by_cases hspace : ∀ d ∈ c, pySpace d = true
  · obtain ⟨rest, hbody, hleft⟩ := body_endFile hr
    have ha : ∀ d ∈ '\n' :: c, pySpace d = true := List.forall_mem_cons.mpr ⟨by decide, hspace⟩
    refine ⟨['\n'], rest, matchAt_blank hne hpath (a := '\n' :: c) (b := []) rfl ha (by simp)
      (by simp) (by decide) (hbody false), ?_, fun _ => hleft⟩
    constructor
    · rintro rfl
      exact Or.inl rfl
    · rintro (rfl | ⟨hblank, -⟩)
      · rfl
      · rw [blankStart_of_space hspace] at hblank
        cases hblank
  · obtain ⟨a, b, d, e, heq, ha, hb, hline, hd, hiff⟩ := exists_first_line hspace
    have hcne : c ≠ [] := by
      rintro rfl
      exact hspace (fun _ h => absurd h List.not_mem_nil)
    have htext : '\n' :: (c ++ '\n' :: (endFile ++ '\n' :: r)) =
        a ++ '\n' :: (b ++ d :: (e ++ '\n' :: (endFile ++ '\n' :: r))) := by
      rw [← List.cons_append, heq]
      simp
    have hstart : fileBlockRe.body false
        ('\n' :: (b ++ d :: (e ++ '\n' :: (endFile ++ '\n' :: r)))) =
        (fileBlockRe.body true ((b ++ d :: e) ++ '\n' :: (endFile ++ '\n' :: r))).map
          fun q => ('\n' :: q.1, q.2) := by
      rw [body_cons (by simp)]
      simp
    have hlength := congrArg List.length heq
    rw [List.length_append, List.length_cons, List.length_cons] at hlength
    by_cases hmark : unmarked true (b ++ d :: e) = true
    · obtain ⟨rest, hbody, hleft⟩ := body_unmarked hr hmark
      rw [hbody] at hstart
      refine ⟨_, rest, matchAt_blank hne hpath htext ha hb hline hd hstart, ?_, fun _ => hleft⟩
      have hstrip : stripLast (stripFirst ('\n' :: ((b ++ d :: e) ++ ['\n']))) = b ++ d :: e := by
        rw [stripFirst, if_pos rfl, stripLast_concat]
      rw [hstrip]
      constructor
      · intro hc
        have hnil : a = [] := by
          rw [hc] at hlength
          exact List.length_eq_zero_iff.mp (by omega)
        exact Or.inr ⟨hiff.mp hnil, hc ▸ hmark⟩
      · rintro (rfl | ⟨hblank, -⟩)
        · exact absurd rfl hcne
        · rw [hiff.mpr hblank] at heq
          exact (List.cons.inj heq).2.symm
    · obtain ⟨u, rest, hbody, hshort⟩ := body_marked r (Bool.eq_false_iff.mpr hmark)
      rw [hbody] at hstart
      have hlost : ¬ Survives c := by
        rintro (rfl | ⟨hblank, hmarked⟩)
        · exact hcne rfl
        · rw [hiff.mpr hblank] at heq
          rw [(List.cons.inj heq).2] at hmarked
          exact hmark hmarked
      refine ⟨_, rest, matchAt_blank hne hpath htext ha hb hline hd hstart, ?_,
        fun h => absurd h hlost⟩
      rw [stripFirst, if_pos rfl]
      refine iff_of_false ?_ hlost
      intro hc
      have hle := length_stripLast_le u
      rw [hc] at hle
      omega

end Block

/-! ## The whole reply -/

namespace MarkedBlock

variable (m : MarkedBlock)

/-- The characters that a match covers only say where the lines begin. -/
theorem scan_skip (u s : List Char) (lineStart : Bool) : ∃ b,
    m.scan u.length lineStart (u ++ s) = m.scan 0 b s := by
  induction u generalizing lineStart with
  | nil => exact ⟨lineStart, rfl⟩
  | cons c u ih => exact ih (c = '\n')

theorem scan_none {c : Char} {s : List Char} {lineStart : Bool}
    (h : lineStart = true → m.matchAt (c :: s) = none) :
    m.scan 0 lineStart (c :: s) = m.scan 0 (c = '\n') s := by
  have hnone : (if lineStart = true then m.matchAt (c :: s) else none) = none := by
    split_ifs with hline
    · exact h hline
    · rfl
  rw [scan, hnone]

end MarkedBlock

theorem matchAt_of_not_bar {s : List Char} (h : ¬ bar <+: s) : fileBlockRe.matchAt s = none := by
  have hopening : fileBlockRe.opening =
      .seq (lit bar) (seqs [spaces, lit "FILE:".toList, spaces]) := rfl
  rw [MarkedBlock.matchAt, hopening, first_seq, first_lit_none h]

theorem scan_newline (lineStart : Bool) (s : List Char) :
    fileBlockRe.scan 0 lineStart ('\n' :: s) = fileBlockRe.scan 0 true s :=
  fileBlockRe.scan_none fun _ => matchAt_of_not_bar (not_bar_newline s)

theorem bar_of_append {u s : List Char} (h : bar <+: u ++ '\n' :: s) : bar <+: u := by
  obtain ⟨t, ht⟩ := h
  rcases List.append_eq_append_iff.mp ht with ⟨v, rfl, -⟩ | ⟨v, hbar, hv⟩
  · exact List.prefix_append bar v
  · cases v with
    | nil => exact ⟨[], by rw [List.append_nil, hbar, List.append_nil]⟩
    | cons c v =>
      obtain ⟨rfl, -⟩ := List.cons.inj hv
      have hmem : '\n' ∈ bar := by
        rw [hbar]
        simp
      exact absurd hmem (by decide)

/-- No file is read off lines that do not begin with the bar. -/
theorem scan_barless {u : List Char} {lineStart : Bool} (h : barless lineStart u = true)
    (s : List Char) :
    fileBlockRe.scan 0 lineStart (u ++ '\n' :: s) = fileBlockRe.scan 0 true s := by
  induction u generalizing lineStart with
  | nil => exact scan_newline lineStart s
  | cons c u ih =>
    rw [barless, Bool.and_eq_true, Bool.not_eq_true', Bool.and_eq_false_iff] at h
    rw [List.cons_append, fileBlockRe.scan_none, ih h.2]
    intro hline
    apply matchAt_of_not_bar
    intro hbar
    rcases h.1 with h' | h'
    · rw [hline] at h'
      cases h'
    · have hpre := List.isPrefixOf_iff_prefix.mpr (bar_of_append (u := c :: u) hbar)
      rw [h'] at hpre
      cases hpre

/-- A marked line that is not a file's opens no file. -/
theorem matchAt_other {d : Char} (hspace : pySpace d = false) (hd : d ≠ 'F') (s : List Char) :
    fileBlockRe.matchAt (bar ++ ([' '] ++ d :: s)) = none := by
  have hopening : fileBlockRe.opening =
      .seq (lit bar) (.seq spaces (.seq (lit ('F' :: "ILE:".toList)) (.seq spaces .eps))) := rfl
  have hfile : ∀ (c : Char) (v : List Char), c ≠ 'F' → ¬ 'F' :: "ILE:".toList <+: c :: v :=
    fun c v hc hpre => hc (List.cons_prefix_cons.mp hpre).1.symm
  rw [MarkedBlock.matchAt, hopening, first_seq, first_lit, first_seq, spaces,
    first_many_all space_one, first_seq, first_lit_none (hfile d s hd)]
  · intro c hc
    obtain rfl : d = c := Option.some.inj hc
    exact hspace
  · intro u c v hc
    have hne : c ≠ 'F' := by
      rintro rfl
      exact absurd hc (by decide)
    rw [first_seq, first_lit_none (hfile c v hne)]

theorem scan_renderRun {run : List Char} (h : barless true run = true) :
    fileBlockRe.scan 0 true (renderRun run) = [] := by
  have hopen : fileBlockRe.scan 0 true (renderRun run) =
      fileBlockRe.scan 0 false ("==== RUN =====".toList ++ '\n' :: (run ++ '\n' :: endRun)) :=
    fileBlockRe.scan_none fun _ => matchAt_other (d := 'R') (by decide) (by decide) _
  have hend : fileBlockRe.scan 0 true endRun =
      fileBlockRe.scan 0 false "==== END RUN =====".toList :=
    fileBlockRe.scan_none fun _ => matchAt_other (d := 'E') (by decide) (by decide) _
  rw [hopen, scan_barless (by decide), scan_barless h, hend]
  rfl

theorem matchAt_path {s w b rest : List Char} (h : fileBlockRe.matchAt s = some (w, b, rest)) :
    w ≠ [] ∧ ∀ c ∈ w, pathChar c = true := by
  obtain ⟨-, t, -, -, ht⟩ := first_eq_some h
  obtain ⟨w', t', -, hw, ht'⟩ := first_eq_some ht
  obtain ⟨-, t'', -, -, hbody⟩ := first_eq_some ht'
  split_ifs at hbody
  obtain ⟨q, -, hq⟩ := Option.map_eq_some_iff.mp hbody
  obtain rfl : w' = w := congrArg Prod.fst hq
  refine ⟨?_, forall_of_atLeast hw⟩
  rintro rfl
  exact absurd (width_le hw) (by decide)

/-- No file without a path is read off a text. -/
theorem scan_path {q : List Char × List Char} (skip : Nat) (lineStart : Bool) (s : List Char)
    (h : q ∈ fileBlockRe.scan skip lineStart s) : q.1 ≠ [] ∧ ∀ c ∈ q.1, pathChar c = true := by
  induction s generalizing skip lineStart with
  | nil =>
    cases skip <;> cases h
  | cons c s ih =>
    cases skip with
    | succ skip => exact ih skip _ h
    | zero =>
      rw [MarkedBlock.scan] at h
      split at h
      · rename_i w b rest hmatch
        rcases List.mem_cons.mp h with rfl | h
        · split_ifs at hmatch
          exact matchAt_path hmatch
        · exact ih _ _ h
      · exact ih _ _ h

theorem trimBy_path {path : List Char} (h : ∀ c ∈ path, pathChar c = true) :
    trimBy pySpace path = path :=
  trimBy_eq_self fun c hc => ((pathChar_iff c).mp (h c hc)).1

theorem parsed_path {text : List Char} {f : List Char × List Char}
    (h : f ∈ (parseEngineerOutput text).files) : f.1 ≠ [] := by
  obtain ⟨q, hq, hf⟩ := List.mem_filterMap.mp h
  obtain ⟨hne, hpath⟩ := scan_path 0 true text hq
  rw [keepFile] at hf
  split_ifs at hf
  obtain rfl := Option.some.inj hf
  rw [trimBy_path hpath]
  exact hne

theorem keepFile_clean {path : List Char} (h : Clean path) (b : List Char) :
    keepFile (path, b) = some (path, stripLast (stripFirst b)) := by
  rw [keepFile, trimBy_path h.1, if_neg (by simp [h.2])]

/-- Going on after a block that was read to its end is going on with the next line. -/
theorem scan_after {u r rest : List Char} (lineStart : Bool)
    (hrest : rest = '\n' :: r ∨ rest = [] ∧ r = []) :
    fileBlockRe.scan ((u ++ '\n' :: r).length - rest.length) lineStart (u ++ '\n' :: r) =
      fileBlockRe.scan 0 true r := by
  rcases hrest with rfl | ⟨rfl, rfl⟩
  · have hskip : (u ++ '\n' :: r).length - ('\n' :: r).length = u.length := by
      rw [List.length_append]
      omega
    obtain ⟨b, hb⟩ := fileBlockRe.scan_skip u ('\n' :: r) lineStart
    rw [hskip, hb, scan_newline]
  · obtain ⟨b, hb⟩ := fileBlockRe.scan_skip (u ++ ['\n']) [] lineStart
    rw [List.append_nil] at hb
    exact hb

theorem renderFile_split (f : List Char × List Char) (r : List Char) : ∃ u,
    renderFile f ++ r = '=' :: (u ++ '\n' :: r) := by
  refine ⟨"==== FILE: ".toList ++ f.1 ++ openEnd ++ '\n' :: (f.2 ++ '\n' :: endFile), ?_⟩
  have hopen : openFile = '=' :: "==== FILE: ".toList := rfl
  rw [renderFile, hopen]
  generalize "==== FILE: ".toList = o
  simp

/-- Reading the rendered files gives them back exactly when every text survives. -/
theorem scan_files {files : List (List Char × List Char)} {r : List Char}
    (hne : ∀ f ∈ files, f.1 ≠ []) (hclean : ∀ f ∈ files, Clean f.1)
    (hr : ∀ c ∈ r.head?, pySpace c = false) (hend : fileBlockRe.scan 0 true r = []) :
    (fileBlockRe.scan 0 true (files.flatMap renderFile ++ r)).filterMap keepFile = files ↔
      ∀ f ∈ files, Survives f.2 := by
  induction files with
  | nil => simp [hend]
  | cons f files ih =>
    obtain ⟨hf, hne⟩ := List.forall_mem_cons.mp hne
    obtain ⟨hfc, hclean⟩ := List.forall_mem_cons.mp hclean
    have hnext : ∀ c ∈ (files.flatMap renderFile ++ r).head?, pySpace c = false := by
      cases files with
      | nil => exact hr
      | cons g files =>
        obtain ⟨u, hu⟩ := renderFile_split g (files.flatMap renderFile ++ r)
        rw [List.flatMap_cons, List.append_assoc, hu]
        intro c hc
        obtain rfl : '=' = c := Option.some.inj hc
        decide
    obtain ⟨b, rest, hmatch, hiff, hleft⟩ := matchAt_renderFile hf hfc.1 hnext f.2
    obtain ⟨u, hu⟩ := renderFile_split f (files.flatMap renderFile ++ r)
    have hscan : fileBlockRe.scan 0 true ((f :: files).flatMap renderFile ++ r) =
        (f.1, b) :: fileBlockRe.scan ((u ++ '\n' :: (files.flatMap renderFile ++ r)).length -
          rest.length) false (u ++ '\n' :: (files.flatMap renderFile ++ r)) := by
      rw [hu] at hmatch
      rw [List.flatMap_cons, List.append_assoc, hu, MarkedBlock.scan, if_pos rfl, hmatch]
      rfl
    rw [hscan, List.filterMap_cons, keepFile_clean hfc, List.forall_mem_cons, List.cons.injEq]
    constructor
    · rintro ⟨hhead, htail⟩
      have hsurvives : Survives f.2 := hiff.mp (congrArg Prod.snd hhead)
      rw [scan_after false (hleft hsurvives)] at htail
      exact ⟨hsurvives, (ih hne hclean).mp htail⟩
    · rintro ⟨hsurvives, hall⟩
      rw [scan_after false (hleft hsurvives), hiff.mpr hsurvives]
      exact ⟨rfl, (ih hne hclean).mpr hall⟩

/-- The files of a rendered reply come back exactly when none is without a path and every text is
empty or begins with a line that is not blank, and has no closing mark in it. -/
theorem parse_render_iff (intro : List Char) (files : List (List Char × List Char))
    (run : Option (List Char)) (hintro : barless true intro = true)
    (hrun : ∀ commands ∈ run, barless true commands = true) (hclean : ∀ f ∈ files, Clean f.1) :
    (parseEngineerOutput (renderOutput intro files run)).files = files ↔
      ∀ f ∈ files, f.1 ≠ [] ∧ Survives f.2 := by
  have htail : (∀ c ∈ ((run.map renderRun).getD []).head?, pySpace c = false) ∧
      fileBlockRe.scan 0 true ((run.map renderRun).getD []) = [] := by
    cases run with
    | none => exact ⟨fun c hc => (Option.not_mem_none c hc).elim, rfl⟩
    | some commands =>
      refine ⟨?_, scan_renderRun (hrun commands rfl)⟩
      intro c hc
      obtain rfl : '=' = c := Option.some.inj hc
      decide
  have hfiles : (parseEngineerOutput (renderOutput intro files run)).files =
      (fileBlockRe.scan 0 true
        (files.flatMap renderFile ++ (run.map renderRun).getD [])).filterMap keepFile := by
    rw [parseEngineerOutput, renderOutput, scan_barless hintro]
  constructor
  · intro h
    have hne : ∀ f ∈ files, f.1 ≠ [] := by
      intro f hf
      rw [← h] at hf
      exact parsed_path hf
    rw [hfiles, scan_files hne hclean htail.1 htail.2] at h
    exact fun f hf => ⟨hne f hf, h f hf⟩
  · intro h
    rw [hfiles, scan_files (fun f hf => (h f hf).1) hclean htail.1 htail.2]
    exact fun f hf => (h f hf).2

def twoFiles : List (List Char × List Char) :=
  [("src/app.py".toList, "x = 1\n\n".toList), ("src/__init__.py".toList, [])]

theorem parse_render_iff_twoFiles :
    (parseEngineerOutput (renderOutput "Two files.".toList twoFiles (some "make".toList))).files =
      twoFiles :=
  (parse_render_iff "Two files.".toList twoFiles (some "make".toList) (by decide +kernel)
    (by decide +kernel) (by decide +kernel)).mpr (by decide +kernel)

/-- Two blank lines at the front of a file are taken for the end of the mark before it. -/
theorem leadingBlank_lost :
    (parseEngineerOutput (renderOutput []
      [("src/app.py".toList, "\n\nx = 1\n".toList)] none)).files =
        [("src/app.py".toList, "x = 1\n".toList)] ∧
    ¬ ∀ files : List (List Char × List Char),
      (∀ f ∈ files, f.1 ≠ [] ∧ Clean f.1 ∧ unmarked true f.2 = true) →
        (parseEngineerOutput (renderOutput [] files none)).files = files := by
  have hlost : (parseEngineerOutput (renderOutput []
      [("src/app.py".toList, "\n\nx = 1\n".toList)] none)).files =
        [("src/app.py".toList, "x = 1\n".toList)] := by
    decide +kernel
  refine ⟨hlost, ?_⟩
  intro h
  have hsame := h [("src/app.py".toList, "\n\nx = 1\n".toList)] (by decide +kernel)
  rw [hlost] at hsame
  exact absurd hsame (by decide)

end SpineFormal.Hub.Engineer
