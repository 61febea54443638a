import SpineFormal.Base.PsqlSet
import SpineFormal.Base.TextCodec

/-!
# Values bound as psql variables

`_psql_bound` of `plan/pipeline/project_lock.py`, of which `phase_evolution.py` keeps a
copy: every value goes to psql's standard input as the text of a `\set` line with its
single quotes doubled, and the query refers to the variables.
-/

namespace SpineFormal.Plan

open Psql
set_option autoImplicit false

section
-- `str.isalnum` of one character beyond ASCII: Python's table
variable (isalnumBeyond : Char → Bool)

def isalnum (c : Char) : Bool := if c.toNat < 128 then c.isAlphanum else isalnumBeyond c

/-- `name.replace("_", "").isalnum()`. -/
def safeName (name : List Char) : Bool :=
  let letters := name.filter (· ≠ '_')
  letters ≠ [] && letters.all (isalnum isalnumBeyond)

/-- `value.replace("'", "''")`. -/
def safe (value : List Char) : List Char := replaceText ['\''] ['\'', '\''] value

/-- `f"\\set {name} '{safe}'"`. -/
def bindLine (b : List Char × List Char) : List Char :=
  "\\set ".toList ++ (b.1 ++ " '".toList ++ (safe b.2 ++ ['\'']))

def scriptLines (sqlWithBinds : List Char) (binds : List (List Char × List Char)) :
    List (List Char) :=
  "\\set ON_ERROR_STOP 1".toList :: (binds.map bindLine ++ [sqlWithBinds])

/-- The script on psql's standard input; `none` is `ValueError`. -/
def psqlScript (sqlWithBinds : List Char) (binds : List (List Char × List Char)) :
    Option (List Char) :=
  if binds.all fun b => safeName isalnumBeyond b.1 then
    some (['\n'].intercalate (scriptLines sqlWithBinds binds) ++ ['\n'])
  else none

end

/-! ## The script in bytes -/

theorem safe_cons (c : Char) (v : List Char) :
    safe (c :: v) = (if c = '\'' then ['\'', '\''] else [c]) ++ safe v := by
  rw [safe, replaceText, replaceFrom]
  by_cases hc : c = '\''
  · subst hc
    rfl
  · have hno : ¬ ['\''].isPrefixOf (c :: v) = true := by
      simp [List.isPrefixOf, Ne.symm hc]
    rw [if_neg hno, if_neg hc]
    rfl

theorem encodeUtf8_safe (v : List Char) : encodeUtf8 (safe v) = doubled (encodeUtf8 v) := by
  induction v with
  | nil => rfl
  | cons c v ih =>
    have hdouble : doubled (String.utf8EncodeChar c) =
        encodeUtf8 (if c = '\'' then ['\'', '\''] else [c]) := by
      by_cases hc : c = '\''
      · subst hc
        decide
      · have hquote : 39 ∉ String.utf8EncodeChar c := by
          have hmem := ascii_mem_encodeUtf8 (a := '\'') (by decide) [c]
          rw [List.mem_singleton] at hmem
          simpa [encodeUtf8] using fun h => hc (hmem.mp (by simpa [encodeUtf8] using h)).symm
        rw [if_neg hc, doubled_of_notMem hquote]
        simp [encodeUtf8]
    rw [safe_cons, encodeUtf8_append, ih, encodeUtf8_cons, doubled_append, hdouble]

/-- A bind as psql gets it. -/
def bindBytes (b : List Char × List Char) : Bind := (encodeUtf8 b.1, encodeUtf8 b.2)

def onErrorStop : Action := .set (encodeUtf8 "ON_ERROR_STOP".toList) (encodeUtf8 "1".toList)

theorem intercalate_newline {lines : List (List Char)} (h : lines ≠ []) :
    ['\n'].intercalate lines ++ ['\n'] = lines.flatMap (· ++ ['\n']) := by
  induction lines with
  | nil => exact absurd rfl h
  | cons line lines ih =>
    cases lines with
    | nil => simp
    | cons next lines =>
      rw [List.intercalate_cons_of_ne_nil (List.cons_ne_nil next lines), List.flatMap_cons,
        ← ih (List.cons_ne_nil next lines)]
      simp

theorem encodeUtf8_bindLine (b : List Char × List Char) :
    encodeUtf8 (bindLine b) = setLine (bindBytes b).1 (bindBytes b).2 := by
  have hset : encodeUtf8 "\\set ".toList = setCommand := by decide
  have hopen : encodeUtf8 " '".toList = [32, 39] := by decide
  have hclose : encodeUtf8 ['\''] = [39] := by decide
  rw [bindLine, encodeUtf8_append, encodeUtf8_append, encodeUtf8_append, encodeUtf8_append, hset,
    hopen, hclose, encodeUtf8_safe, setLine, bindBytes]
  simp

theorem encodeUtf8_newline : encodeUtf8 ['\n'] = [10] := by decide

theorem encodeUtf8_bindLines (binds : List (List Char × List Char)) :
    encodeUtf8 ((binds.map bindLine).flatMap (· ++ ['\n'])) = setLines (binds.map bindBytes) := by
  induction binds with
  | nil => rfl
  | cons b binds ih =>
    rw [List.map_cons, List.flatMap_cons, encodeUtf8_append, encodeUtf8_append, encodeUtf8_bindLine,
      ih, encodeUtf8_newline, setLines, setLines, List.map_cons, List.map_cons, joinLines_cons]
    simp

variable {isalnumBeyond : Char → Bool}

theorem psqlScript_bytes {sql script : List Char} {binds : List (List Char × List Char)}
    (h : psqlScript isalnumBeyond sql binds = some script) :
    encodeUtf8 script = encodeUtf8 "\\set ON_ERROR_STOP 1".toList ++
      10 :: (setLines (binds.map bindBytes) ++ encodeUtf8 (sql ++ ['\n'])) := by
  rw [psqlScript] at h
  split_ifs at h
  rw [← Option.some.inj h, intercalate_newline (by simp [scriptLines]), scriptLines,
    List.flatMap_cons, List.flatMap_append, List.flatMap_singleton, encodeUtf8_append,
    encodeUtf8_append, encodeUtf8_append, encodeUtf8_bindLines, encodeUtf8_newline]
  simp

/-- No blank and no newline gets into a variable's name. -/
theorem safeName_bytes {name : List Char} (h : safeName isalnumBeyond name = true) :
    32 ∉ encodeUtf8 name ∧ 10 ∉ encodeUtf8 name := by
  have hletters : ∀ c ∈ name, c ≠ '_' → isalnum isalnumBeyond c = true := by
    intro c hc hne
    simp only [safeName, Bool.and_eq_true, List.all_eq_true] at h
    exact h.2 c (List.mem_filter.mpr ⟨hc, decide_eq_true hne⟩)
  have hother : ∀ a : Char, a.toNat < 128 → a ≠ '_' → a.isAlphanum = false →
      UInt8.ofNat a.toNat ∉ encodeUtf8 name := by
    intro a hascii hne hno hmem
    have hyes := hletters a ((ascii_mem_encodeUtf8 hascii name).mp hmem) hne
    rw [isalnum, if_pos hascii, hno] at hyes
    cases hyes
  exact ⟨hother ' ' (by decide) (by decide) (by decide),
    hother '\n' (by decide) (by decide) (by decide)⟩

theorem readScript_header (B : Bare) (rest : Bytes) :
    readScript B [] (encodeUtf8 "\\set ON_ERROR_STOP 1".toList ++ 10 :: rest) =
      (onErrorStop :: (readScript B [onErrorStop] rest).1,
        (readScript B [onErrorStop] rest).2) := by
  have hline : encodeUtf8 "\\set ON_ERROR_STOP 1".toList =
      setCommand ++ (encodeUtf8 "ON_ERROR_STOP".toList ++ 32 :: encodeUtf8 "1".toList) := by decide
  have hread : readSet B [] (encodeUtf8 "\\set ON_ERROR_STOP 1".toList) =
      some (onErrorStop, []) := by
    rw [hline]
    exact readSet_word B (by decide) (by decide) []
  rw [readScript, newlineLines_line (by decide), readLines, hread]
  rfl

/-- psql gives each variable its value, and goes on as it would on the query alone. -/
def ReadsAsBound (B : Bare) (sql : List Char) (binds : List (List Char × List Char))
    (script : List Char) : Prop :=
  let given := onErrorStop :: binds.map fun b => (bindBytes b).action
  let query := readScript B given (encodeUtf8 (sql ++ ['\n']))
  readScript B [] (encodeUtf8 script) = (given ++ query.1, query.2)

/-- Whatever psql makes of the rest of a line, a script is read as it was meant exactly when
no value has a backslash or a newline. -/
theorem psqlScript_reads_iff (B : Bare) {sql script : List Char}
    {binds : List (List Char × List Char)} (h : psqlScript isalnumBeyond sql binds = some script) :
    ReadsAsBound B sql binds script ↔ ∀ b ∈ binds, '\\' ∉ b.2 ∧ '\n' ∉ b.2 := by
  have hnames : ∀ b ∈ binds.map bindBytes, 32 ∉ b.1 ∧ 10 ∉ b.1 := by
    rw [psqlScript] at h
    split_ifs at h with hsafe
    intro b hb
    obtain ⟨c, hc, rfl⟩ := List.mem_map.mp hb
    exact safeName_bytes (List.all_eq_true.mp hsafe c hc)
  have hbytes := readScript_setLines_iff B hnames [onErrorStop] (encodeUtf8 (sql ++ ['\n']))
  have hvalues : (∀ b ∈ binds.map bindBytes, 92 ∉ b.2 ∧ 10 ∉ b.2) ↔
      ∀ b ∈ binds, '\\' ∉ b.2 ∧ '\n' ∉ b.2 := by
    rw [List.forall_mem_map]
    refine forall₂_congr fun b _ => and_congr (not_congr ?_) (not_congr ?_)
    · exact ascii_mem_encodeUtf8 (a := '\\') (by decide) b.2
    · exact ascii_mem_encodeUtf8 (a := '\n') (by decide) b.2
  rw [ReadsAsBound, psqlScript_bytes h, readScript_header, ← hvalues, ← hbytes, List.map_map]
  simp [Prod.ext_iff, Function.comp_def]

/-! ## A project id that runs a command -/

/-- Behind the quotes the value goes on without blanks up to a backslash, which begins
another command. -/
def untilBackslash : Bare where
  read _ s := ((s.takeWhile (· ≠ 92)).filter (· ≠ 32), s.dropWhile (· ≠ 92))
  read_word _ word h := by
    have hword : ∀ b ∈ word, b ≠ 92 ∧ b ≠ 32 := by
      intro b hb
      have hbyte := List.all_eq_true.mp h b hb
      constructor <;> rintro rfl <;> exact absurd hbyte (by decide)
    have htake : word.takeWhile (· ≠ 92) = word :=
      List.takeWhile_eq_self_iff.mpr fun b hb => decide_eq_true (hword b hb).1
    have hdrop : word.dropWhile (· ≠ 92) = [] :=
      List.dropWhile_eq_nil_iff.mpr fun b hb => decide_eq_true (hword b hb).1
    rw [htake, hdrop, List.filter_eq_self.mpr fun b hb => decide_eq_true (hword b hb).2]

def projectQuery : List Char := "SELECT pipeline_version FROM p WHERE id = :'pid';".toList

def ohara : List (List Char × List Char) := [("pid".toList, "o'hara".toList)]

theorem psqlScript_reads_ohara : ∃ script,
    psqlScript (fun _ => false) projectQuery ohara = some script ∧
    (ReadsAsBound untilBackslash projectQuery ohara script ↔
      ∀ b ∈ ohara, '\\' ∉ b.2 ∧ '\n' ∉ b.2) := by
  have hsome : (psqlScript (fun _ => false) projectQuery ohara).isSome := by decide
  obtain ⟨script, h⟩ := Option.isSome_iff_exists.mp hsome
  exact ⟨script, h, psqlScript_reads_iff untilBackslash h⟩

def shellCommand : List (List Char × List Char) := [("pid".toList, "\\'; \\! id".toList)]

/-- The first quote of the pair is escaped, the second ends the value, and psql goes on
with `\!`, which hands the line to a shell. -/
theorem bound_value_is_command : ∃ script,
    psqlScript (fun _ => false) projectQuery shellCommand = some script ∧
    readScript untilBackslash [] (encodeUtf8 script) =
      ([onErrorStop, .set (encodeUtf8 "pid".toList) (encodeUtf8 "';".toList)],
        [encodeUtf8 "\\! id'".toList, encodeUtf8 projectQuery]) ∧
    ¬ ReadsAsBound untilBackslash projectQuery shellCommand script := by
  have hread : (psqlScript (fun _ => false) projectQuery shellCommand).map
      (fun script => readScript untilBackslash [] (encodeUtf8 script)) =
      some ([onErrorStop, .set (encodeUtf8 "pid".toList) (encodeUtf8 "';".toList)],
        [encodeUtf8 "\\! id'".toList, encodeUtf8 projectQuery]) := by decide +kernel
  obtain ⟨script, h, hread⟩ := Option.map_eq_some_iff.mp hread
  refine ⟨script, h, hread, fun hbound => ?_⟩
  rw [ReadsAsBound, hread] at hbound
  have hsecond := congrArg (fun p : List Action × List Bytes => p.1[1]?) hbound
  have hset : some (Action.set (encodeUtf8 "pid".toList) (encodeUtf8 "';".toList)) =
      some (Action.set (encodeUtf8 "pid".toList) (encodeUtf8 "\\'; \\! id".toList)) := hsecond
  revert hset
  decide +kernel

end SpineFormal.Plan
