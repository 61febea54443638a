import SpineFormal.Base.LineFile
import SpineFormal.Base.Run

/-!
# Draining an outbox file

`db/watcher/spine_watcher.py` reads an outbox from its cursor on, splits what
ends in a newline into lines and counts the bytes of a line by encoding it again.
The count is that of the file only where decoding and splitting took nothing
away and added nothing.
-/

namespace SpineFormal.Watcher

set_option autoImplicit false

/-- What comes of `ingest_outbox_line`. A lost connection leaves open whether the commit went
through; `unnamed` is an exception of a class that `drain_file` does not catch. -/
inductive Outcome where
  | returned (committed : Bool)
  | malformed
  | databaseError
  | connectionError (committed : Bool)
  | unnamed
  deriving DecidableEq

/-- A line handed to `ingest_outbox_line`, with the offset at which the loop places it. -/
structure Attempt where
  offset : Nat
  line : List Char
  outcome : Outcome
  deriving DecidableEq

/-- How `drain_file` ends. -/
inductive Exit where
  | done
  | connectionError
  | unnamed
  deriving DecidableEq

structure Drain where
  attempts : List Attempt
  offset : Nat
  exit : Exit
  deriving DecidableEq

/-- `_split_complete_lines`: the lines, and the bytes consumed. -/
def splitCompleteLines (buf : Bytes) : List (List Char) × Nat :=
  let complete := buf.rdropWhile (· != 10)
  (splitlines (decodeReplace complete), complete.length)

/-- `len(line.encode("utf-8")) + 1`. -/
def lineBytes (line : List Char) : Nat := (encodeUtf8 line).length + 1

/-- The loop of `drain_file`. -/
def drainLines (ingest : Nat → List Char → Outcome) : Nat → List (List Char) → Drain
  | offset, [] => ⟨[], offset, .done⟩
  | offset, line :: lines =>
    let stripped := trimBy pySpace line
    if stripped = [] then drainLines ingest (offset + lineBytes line) lines
    else
      let outcome := ingest offset stripped
      match outcome with
      | .returned _ =>
        let d := drainLines ingest (offset + lineBytes line) lines
        { d with attempts := ⟨offset, stripped, outcome⟩ :: d.attempts }
      | .connectionError _ => ⟨[⟨offset, stripped, outcome⟩], offset, .connectionError⟩
      | .unnamed => ⟨[⟨offset, stripped, outcome⟩], offset, .unnamed⟩
      -- a line that is malformed or refused by the database stays where it is
      | .malformed | .databaseError => ⟨[⟨offset, stripped, outcome⟩], offset, .done⟩

/-- `drain_file`; its offset is the cursor it leaves. -/
def drainFile (ingest : Nat → List Char → Outcome) (file : Bytes) (cursor : Nat) : Drain :=
  let lines := (splitCompleteLines (file.drop cursor)).1
  if lines = [] then ⟨[], cursor, .done⟩
  else
    let d := drainLines ingest cursor lines
    if d.exit = .done ∧ cursor < d.offset then d else { d with offset := cursor }

/-! ## Appends and drains where every ingest succeeds -/

structure OutboxFile where
  file : Bytes := []
  cursor : Nat := 0
  /-- What was handed to `ingest_outbox_line` so far. -/
  handed : List (List Char) := []
  deriving DecidableEq

inductive OutboxEvent where
  | append (bs : Bytes)
  | drain

def OutboxFile.step (s : OutboxFile) : OutboxEvent → OutboxFile
  | .append bs => { s with file := s.file ++ bs }
  | .drain =>
    let d := drainFile (fun _ _ => .returned true) s.file s.cursor
    { s with
      cursor := d.offset
      handed := s.handed ++ d.attempts.map Attempt.line }

/-- What there is to hand on: the lines that are not blank, decoded and stripped. -/
def contents (lines : List Bytes) : List (List Char) := strippedLines (lines.map decodeReplace)

/-- Every whole line of the file was handed on, once and in order, and the cursor stands at the
start of a line. -/
def OutboxFile.Drained (s : OutboxFile) : Prop :=
  s.handed = contents (newlineLines s.file) ∧
    (s.cursor = 0 ∨ s.file[s.cursor - 1]? = some 10)

/-- The line is one for `str.splitlines` too, blank pieces aside, and encodes to as many bytes. -/
def LineFits (line : Bytes) : Prop :=
  (strippedLines (splitlines (decodeReplace line ++ ['\n']))).length ≤ 1 ∧
    ((splitlines (decodeReplace line ++ ['\n'])).map lineBytes).sum = line.length + 1

instance (line : Bytes) : Decidable (LineFits line) := inferInstanceAs (Decidable (_ ∧ _))

/-- Every whole line of the file, once the event has happened, fits. -/
def OutboxFile.Fits (s : OutboxFile) (e : OutboxEvent) : Prop :=
  ∀ line ∈ newlineLines (s.step e).file, LineFits line

instance (s : OutboxFile) (e : OutboxEvent) : Decidable (s.Fits e) :=
  inferInstanceAs (Decidable (∀ line ∈ _, LineFits line))

/-- A line of text without a line break of its own fits. -/
theorem lineFits_of_text {text : List Char} (h : ∀ c ∈ text, lineBreak c = false) :
    LineFits (encodeUtf8 text) := by
  have hpieces : splitlines (decodeReplace (encodeUtf8 text) ++ ['\n']) = [text] := by
    rw [decodeReplace_encodeUtf8, splitlines_line h]
    rfl
  rw [LineFits, hpieces]
  refine ⟨?_, by simp [lineBytes]⟩
  rw [strippedLines]
  exact List.length_filter_le _ _

theorem drainLines_success (offset : Nat) (lines : List (List Char)) :
    let d := drainLines (fun _ _ => .returned true) offset lines
    d.attempts.map Attempt.line = strippedLines lines ∧
      d.offset = offset + (lines.map lineBytes).sum ∧ d.exit = .done := by
  induction lines generalizing offset with
  | nil => exact ⟨rfl, rfl, rfl⟩
  | cons line lines ih =>
    obtain ⟨hlines, hoffset, hexit⟩ := ih (offset + lineBytes line)
    rw [strippedLines_cons]
    by_cases hblank : trimBy pySpace line = []
    · simp only [drainLines, if_pos hblank, List.map_cons, List.sum_cons]
      exact ⟨hlines, by omega, hexit⟩
    · simp only [drainLines, if_neg hblank, List.map_cons, List.sum_cons, hlines]
      exact ⟨trivial, by omega, hexit⟩

theorem strippedLines_of_fits {line : Bytes} (h : LineFits line) :
    strippedLines (splitlines (decodeReplace line ++ ['\n'])) =
      strippedLines [decodeReplace line] := by
  rw [strippedLines_splitlines h.1, strippedLines_cons, strippedLines_cons,
    trimBy_append_space _ (List.forall_mem_singleton.mpr (by decide))]

/-- The two measures agree on a batch of lines that fit. -/
theorem batch_of_fits {lines : List Bytes} (h : ∀ line ∈ lines, LineFits line) :
    strippedLines (splitlines (decodeReplace (joinLines lines))) = contents lines ∧
      ((splitlines (decodeReplace (joinLines lines))).map lineBytes).sum =
        (joinLines lines).length := by
  rw [splitlines_joinLines]
  induction lines with
  | nil => exact ⟨rfl, rfl⟩
  | cons line lines ih =>
    obtain ⟨htexts, hbytes⟩ := ih fun l hl => h l (List.mem_cons_of_mem line hl)
    have hline := h line List.mem_cons_self
    constructor
    · rw [List.flatMap_cons, strippedLines_append, htexts, strippedLines_of_fits hline, contents,
        contents, ← strippedLines_append]
      rfl
    · rw [List.flatMap_cons, List.map_append, List.sum_append, hbytes, hline.2, joinLines_cons,
        List.length_append, List.length_cons]
      omega

theorem splitCompleteLines_eq (buf : Bytes) :
    (splitCompleteLines buf).1 = splitlines (decodeReplace (joinLines (newlineLines buf))) := by
  rw [splitCompleteLines, rdropWhile_newline]

theorem lineBytes_sum_pos {lines : List (List Char)} (h : lines ≠ []) :
    0 < (lines.map lineBytes).sum := by
  obtain ⟨line, lines, rfl⟩ := List.exists_cons_of_ne_nil h
  rw [List.map_cons, List.sum_cons, lineBytes]
  omega

theorem drainFile_success {file : Bytes} {cursor : Nat}
    (h : ∀ line ∈ newlineLines (file.drop cursor), LineFits line) :
    (drainFile (fun _ _ => .returned true) file cursor).attempts.map Attempt.line =
        contents (newlineLines (file.drop cursor)) ∧
      (drainFile (fun _ _ => .returned true) file cursor).offset =
        cursor + (joinLines (newlineLines (file.drop cursor))).length := by
  obtain ⟨htexts, hbytes⟩ := batch_of_fits h
  rw [← htexts, ← hbytes, ← splitCompleteLines_eq]
  generalize hlines : (splitCompleteLines (file.drop cursor)).1 = lines
  rw [drainFile, hlines]
  by_cases hnil : lines = []
  · subst hnil
    exact ⟨rfl, rfl⟩
  · obtain ⟨hmap, hoffset, hexit⟩ := drainLines_success cursor lines
    have hlt : cursor < (drainLines (fun _ _ => .returned true) cursor lines).offset := by
      have hpos := lineBytes_sum_pos hnil
      omega
    simp only [if_neg hnil, if_pos (And.intro hexit hlt)]
    exact ⟨hmap, hoffset⟩

namespace OutboxFile
variable {s : OutboxFile}

/-- The cursor stands behind lines of the file that were all handed on. -/
def Consistent (s : OutboxFile) : Prop :=
  ∃ lines rest, s.file = joinLines lines ++ rest ∧ (∀ line ∈ lines, 10 ∉ line) ∧
    s.cursor = (joinLines lines).length ∧ s.handed = contents lines

theorem Consistent.append (h : s.Consistent) (bs : Bytes) : (s.step (.append bs)).Consistent := by
  obtain ⟨lines, rest, hfile, hlines, hcursor, hhanded⟩ := h
  exact ⟨lines, rest ++ bs, by rw [step, hfile, List.append_assoc], hlines, hcursor, hhanded⟩

/-- A drain takes the rest of the whole lines. -/
theorem Consistent.drain (h : s.Consistent) (hfits : s.Fits .drain) :
    (s.step .drain).Consistent ∧ (s.step .drain).Drained := by
  obtain ⟨lines, rest, hfile, hlines, hcursor, hhanded⟩ := h
  obtain ⟨hmore, tail, hrest, -⟩ := newlineLines_spec rest
  have hall : newlineLines s.file = lines ++ newlineLines rest := by
    rw [hfile, newlineLines_join hlines]
  have hdata : s.file.drop s.cursor = rest := by
    rw [hfile, hcursor, List.drop_left]
  have hmem : ∀ line ∈ newlineLines (s.file.drop s.cursor), LineFits line := by
    intro line hl
    apply hfits
    rw [show (s.step .drain).file = s.file from rfl, hall]
    exact List.mem_append_right _ (hdata ▸ hl)
  obtain ⟨hmap, hoffset⟩ := drainFile_success hmem
  rw [hdata] at hmap hoffset
  have hhanded' : (s.step .drain).handed = contents (lines ++ newlineLines rest) := by
    rw [step, hmap, hhanded, contents, contents, contents, List.map_append, strippedLines_append]
  have hcursor' : (s.step .drain).cursor = (joinLines (lines ++ newlineLines rest)).length := by
    rw [step, hoffset, hcursor, joinLines_append, List.length_append]
  have hfile' : (s.step .drain).file = joinLines (lines ++ newlineLines rest) ++ tail := by
    rw [joinLines_append, List.append_assoc, ← hrest, ← hfile]
    rfl
  refine ⟨⟨_, _, hfile', ?_, hcursor', hhanded'⟩, ?_, ?_⟩
  · intro line hl
    exact (List.mem_append.mp hl).elim (hlines line) (hmore line)
  · rw [hhanded', ← hall]
    rfl
  · rw [hcursor', hfile']
    by_cases hnil : lines ++ newlineLines rest = []
    · exact .inl (by rw [hnil]; rfl)
    · exact .inr (joinLines_last hnil tail)

theorem drained_lines_once {es : List OutboxEvent}
    (h : Run (fun s e t => s.Fits e ∧ s.step e = t) {} (es ++ [.drain]) s) : s.Drained := by
  have hinv : s.Consistent ∧
      ((es ++ [OutboxEvent.drain]).getLast? = some .drain → s.Drained) := by
    refine h.invariant (I := fun es s => s.Consistent ∧ (es.getLast? = some .drain → s.Drained))
      ⟨⟨[], [], rfl, by simp, rfl, rfl⟩, by simp⟩ ?_
    rintro es s _ e ⟨hs, -⟩ ⟨hfits, rfl⟩
    cases e with
    | append bs => exact ⟨hs.append bs, by simp⟩
    | drain => exact ⟨(hs.drain hfits).1, fun _ => (hs.drain hfits).2⟩
  exact hinv.2 (by simp)

theorem drained_lines_once_two :
    (⟨encodeUtf8 "{}\n[]\n".toList, 6, ["{}".toList, "[]".toList]⟩ : OutboxFile).Drained := by
  have hrun : Run (fun (s : OutboxFile) e t => s.Fits e ∧ some (s.step e) = some t) {}
      ([.append (encodeUtf8 "{}\n[".toList), .drain, .append (encodeUtf8 "]".toList),
        .append [10]] ++ [.drain])
      ⟨encodeUtf8 "{}\n[]\n".toList, 6, ["{}".toList, "[]".toList]⟩ :=
    Run.of_guarded_foldlM (by decide +kernel)
  exact drained_lines_once (hrun.mono fun h => ⟨h.1, Option.some.inj h.2⟩)

/-- A carriage return before the newline is no byte of the piece. -/
theorem cursor_short_of_newline : ∃ s : OutboxFile, ¬ s.Drained ∧ s.cursor = 3 ∧
    Run (fun s e t => s.step e = t) {} [.append (encodeUtf8 "{}\r\n".toList), .drain] s := by
  refine ⟨⟨encodeUtf8 "{}\r\n".toList, 3, ["{}".toList]⟩, ?_, rfl, ?_⟩
  · rintro ⟨-, h⟩
    revert h
    decide +kernel
  · exact .snoc (.single rfl) (by decide +kernel)

end OutboxFile
end SpineFormal.Watcher
