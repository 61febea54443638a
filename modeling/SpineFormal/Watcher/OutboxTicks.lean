import SpineFormal.Json.Loads
import SpineFormal.Watcher.Outbox

/-!
# Ticks over several outboxes

One tick drains every outbox in turn. The cursor of a file is stored once, after
its batch; a connection error or an exception that `drain_file` does not name
leaves before that, and leaves the tick as well.
-/

namespace SpineFormal.Watcher

open Json
set_option autoImplicit false

def Outcome.committed : Outcome → Bool
  | .returned c => c
  | .connectionError c => c
  | _ => false

/-- `ingest_outbox_line`; `handler` is what comes of the ingest of a line of a known type. -/
def ingestOutboxLine (handler : Outcome) (line : List Char) : Outcome :=
  match loadsText line with
  | none => .malformed
  | some (.obj ms) =>
    match lookup ms "type" with
    | some (.str kind) =>
      if kind ∈ ["cost", "event", "instance", "engagement"] then handler else .returned false
    | _ => .returned false
  -- `obj.get` of what is no dictionary
  | some _ => .unnamed

/-- An outbox file with its cursor, and the attempts made on its lines so far. -/
structure Outbox where
  file : Bytes := []
  cursor : Nat := 0
  log : List Attempt := []
  deriving DecidableEq

/-- `drain_file` on the outbox. -/
def Outbox.drain (b : Outbox) (handler : Nat → Outcome) : Outbox × Exit :=
  let d := drainFile (fun offset => ingestOutboxLine (handler offset)) b.file b.cursor
  ({ b with
    cursor := d.offset
    log := b.log ++ d.attempts }, d.exit)

structure TickRecord where
  /-- On how many outboxes `drain_file` was called. -/
  drained : Nat
  exit : Exit
  deriving DecidableEq

/-- The loop of `tick`; `handler` answers for the number of an outbox and an offset. -/
def tickFrom (handler : Nat → Nat → Outcome) : Nat → List Outbox → List Outbox × TickRecord
  | _, [] => ([], ⟨0, .done⟩)
  | i, b :: bs =>
    let (b', exit) := b.drain (handler i)
    if exit = .done then
      let (bs', r) := tickFrom handler (i + 1) bs
      (b' :: bs', { r with drained := r.drained + 1 })
    else (b' :: bs, ⟨1, exit⟩)

structure Outboxes where
  outboxes : List Outbox
  ticks : List TickRecord := []
  deriving DecidableEq

inductive WatcherEvent where
  /-- The daemon appends to the `i`-th outbox. -/
  | append (i : Nat) (bs : Bytes)
  /-- One tick, also the first after a restart of the process. -/
  | tick (handler : Nat → Nat → Outcome)

def Outboxes.step (s : Outboxes) : WatcherEvent → Outboxes
  | .append i bs =>
    { s with outboxes := s.outboxes.modify i fun b => { b with file := b.file ++ bs } }
  | .tick handler =>
    let (outboxes, r) := tickFrom handler 0 s.outboxes
    ⟨outboxes, s.ticks ++ [r]⟩

/-! ## What the ticks are to keep -/

/-- The line that starts at the offset, as it is handed on. -/
def LineAt (file : Bytes) (offset : Nat) (text : List Char) : Prop :=
  ∃ lines line rest, file = joinLines lines ++ (line ++ 10 :: rest) ∧ 10 ∉ line ∧
    (∀ l ∈ lines, 10 ∉ l) ∧ offset = (joinLines lines).length ∧
    text = trimBy pySpace (decodeReplace line)

/-- No line is attempted again once its ingest has committed, and each attempt was made on the line
at its offset. -/
structure Outbox.NoReplay (b : Outbox) : Prop where
  pairwise : b.log.Pairwise fun a a' => a.outcome.committed = true → a.offset ≠ a'.offset
  lineAt : ∀ a ∈ b.log, LineAt b.file a.offset a.line

/-- No line is ingested twice, and a tick without a connection error has drained every outbox. -/
structure Outboxes.Correct (s : Outboxes) : Prop where
  noReplay : ∀ b ∈ s.outboxes, b.NoReplay
  drained : ∀ r ∈ s.ticks, r.exit ≠ .connectionError → r.drained = s.outboxes.length

/-! ## When they keep it -/

/-- One line for `str.splitlines`, of as many bytes. -/
def PlainLine (line : Bytes) : Prop :=
  (∀ c ∈ decodeReplace line, lineBreak c = false) ∧
    (encodeUtf8 (decodeReplace line)).length = line.length

instance (line : Bytes) : Decidable (PlainLine line) :=
  @instDecidableAnd _ _ (List.decidableBAll _ _) inferInstance

/-- The outcomes that the lines of a batch have in store. -/
def outcomesFrom (ingest : Nat → List Char → Outcome) : Nat → List (List Char) → List Outcome
  | _, [] => []
  | offset, line :: lines =>
    if trimBy pySpace line = [] then outcomesFrom ingest (offset + lineBytes line) lines
    else ingest offset (trimBy pySpace line) ::
      outcomesFrom ingest (offset + lineBytes line) lines

def Outbox.outcomes (b : Outbox) (handler : Nat → Outcome) : List Outcome :=
  outcomesFrom (fun offset => ingestOutboxLine (handler offset)) b.cursor
    (splitCompleteLines (b.file.drop b.cursor)).1

/-- The first exception of a batch, if it is one that leaves the tick, finds nothing committed. -/
def keepsCommits (committed : Bool) : List Outcome → Bool
  | .returned c :: os => keepsCommits (committed || c) os
  | .connectionError c :: _ => !committed && !c
  | .unnamed :: _ => !committed
  | _ => true

/-- How a batch with these outcomes ends. -/
def exitOf : List Outcome → Exit
  | .returned _ :: os => exitOf os
  | .connectionError _ :: _ => .connectionError
  | .unnamed :: _ => .unnamed
  | _ => .done

/-- No batch loses a commit, and an unnamed exception comes in the last outbox only. -/
def tickSafe (handler : Nat → Nat → Outcome) : Nat → List Outbox → Bool
  | _, [] => true
  | i, b :: bs =>
    keepsCommits false (b.outcomes (handler i)) &&
      match exitOf (b.outcomes (handler i)) with
      | .done => tickSafe handler (i + 1) bs
      | .connectionError => true
      | .unnamed => bs.isEmpty

def Outboxes.Safe (s : Outboxes) : WatcherEvent → Prop
  | .append i bs =>
    ∀ b ∈ (s.step (.append i bs)).outboxes, ∀ line ∈ newlineLines b.file, PlainLine line
  | .tick handler => tickSafe handler 0 s.outboxes = true

instance : (s : Outboxes) → (e : WatcherEvent) → Decidable (s.Safe e)
  | s, .append i bs => inferInstanceAs (Decidable
      (∀ b ∈ (s.step (.append i bs)).outboxes, ∀ line ∈ newlineLines b.file, PlainLine line))
  | s, .tick handler => inferInstanceAs (Decidable (tickSafe handler 0 s.outboxes = true))

/-! ## One batch -/

section
variable {ingest : Nat → List Char → Outcome} {offset : Nat} {line : List Char}

theorem drainLines_blank (h : trimBy pySpace line = []) (lines : List (List Char)) :
    drainLines ingest offset (line :: lines) =
      drainLines ingest (offset + lineBytes line) lines := by
  rw [drainLines, if_pos h]

theorem drainLines_returned {c : Bool} (h : trimBy pySpace line ≠ [])
    (ho : ingest offset (trimBy pySpace line) = .returned c) (lines : List (List Char)) :
    drainLines ingest offset (line :: lines) =
      { drainLines ingest (offset + lineBytes line) lines with
        attempts := ⟨offset, trimBy pySpace line, .returned c⟩ ::
          (drainLines ingest (offset + lineBytes line) lines).attempts } := by
  rw [drainLines, if_neg h, ho]

theorem drainLines_stop (h : trimBy pySpace line ≠ [])
    (ho : ∀ c, ingest offset (trimBy pySpace line) ≠ .returned c) (lines : List (List Char)) :
    drainLines ingest offset (line :: lines) =
      ⟨[⟨offset, trimBy pySpace line, ingest offset (trimBy pySpace line)⟩], offset,
        exitOf [ingest offset (trimBy pySpace line)]⟩ := by
  rw [drainLines, if_neg h]
  cases hout : ingest offset (trimBy pySpace line) with
  | returned c => exact absurd hout (ho c)
  | _ => rfl

theorem outcomesFrom_blank (h : trimBy pySpace line = []) (lines : List (List Char)) :
    outcomesFrom ingest offset (line :: lines) =
      outcomesFrom ingest (offset + lineBytes line) lines := by
  rw [outcomesFrom, if_pos h]

theorem outcomesFrom_cons (h : trimBy pySpace line ≠ []) (lines : List (List Char)) :
    outcomesFrom ingest offset (line :: lines) = ingest offset (trimBy pySpace line) ::
      outcomesFrom ingest (offset + lineBytes line) lines := by
  rw [outcomesFrom, if_neg h]

theorem exitOf_stop {o : Outcome} (h : ∀ c, o ≠ .returned c) (os : List Outcome) :
    exitOf (o :: os) = exitOf [o] := by
  cases o with
  | returned c => exact absurd rfl (h c)
  | _ => rfl

end

/-- The three ways in which the loop takes a line. -/
theorem line_cases (ingest : Nat → List Char → Outcome) (offset : Nat) (line : List Char) :
    trimBy pySpace line = [] ∨
      (trimBy pySpace line ≠ [] ∧ ∃ c, ingest offset (trimBy pySpace line) = .returned c) ∨
      (trimBy pySpace line ≠ [] ∧ ∀ c, ingest offset (trimBy pySpace line) ≠ .returned c) := by
  by_cases hblank : trimBy pySpace line = []
  · exact .inl hblank
  · by_cases hret : ∃ c, ingest offset (trimBy pySpace line) = .returned c
    · exact .inr (.inl ⟨hblank, hret⟩)
    · exact .inr (.inr ⟨hblank, fun c hc => hret ⟨c, hc⟩⟩)

/-- Offsets grow along a batch, from where it starts to where it ends. -/
structure Ordered (start : Nat) (d : Drain) : Prop where
  start_le : ∀ a ∈ d.attempts, start ≤ a.offset
  increasing : d.attempts.Pairwise fun a a' => a.offset < a'.offset
  end_le : start ≤ d.offset
  behind : ∀ a ∈ d.attempts, a.outcome.committed = true → d.exit = .done → a.offset < d.offset

theorem Ordered.weaken {start start' : Nat} {d : Drain} (h : Ordered start' d)
    (hle : start ≤ start') : Ordered start d where
  start_le a ha := Nat.le_trans hle (h.start_le a ha)
  increasing := h.increasing
  end_le := Nat.le_trans hle h.end_le
  behind := h.behind

theorem drainLines_ordered (ingest : Nat → List Char → Outcome) (offset : Nat)
    (lines : List (List Char)) : Ordered offset (drainLines ingest offset lines) := by
  induction lines generalizing offset with
  | nil => exact ⟨by simp [drainLines], by simp [drainLines], Nat.le_refl _, by simp [drainLines]⟩
  | cons line lines ih =>
    have hlt : offset < offset + lineBytes line := by
      rw [lineBytes]
      omega
    have hrest := ih (offset + lineBytes line)
    rcases line_cases ingest offset line with h | ⟨h, c, ho⟩ | ⟨h, ho⟩
    · rw [drainLines_blank h]
      exact hrest.weaken (Nat.le_of_lt hlt)
    · rw [drainLines_returned h ho]
      constructor
      · intro a ha
        rcases List.mem_cons.mp ha with rfl | ha
        · exact Nat.le_refl _
        · exact Nat.le_trans (Nat.le_of_lt hlt) (hrest.start_le a ha)
      · refine List.pairwise_cons.mpr ⟨fun a ha => ?_, hrest.increasing⟩
        exact Nat.lt_of_lt_of_le hlt (hrest.start_le a ha)
      · exact Nat.le_trans (Nat.le_of_lt hlt) hrest.end_le
      · intro a ha hc hexit
        rcases List.mem_cons.mp ha with rfl | ha
        · exact Nat.lt_of_lt_of_le hlt hrest.end_le
        · exact hrest.behind a ha hc hexit
    · rw [drainLines_stop h ho]
      refine ⟨by simp, by simp, Nat.le_refl _, fun a ha hc hexit => ?_⟩
      obtain rfl := List.mem_singleton.mp ha
      -- an outcome that ends the loop without leaving the tick has committed nothing
      cases hout : ingest offset (trimBy pySpace line) with
      | returned c => exact absurd hout (ho c)
      | connectionError c =>
        rw [hout] at hexit
        cases hexit
      | malformed | databaseError | unnamed =>
        rw [hout] at hc
        cases hc

theorem drainLines_exit (ingest : Nat → List Char → Outcome) (offset : Nat)
    (lines : List (List Char)) :
    (drainLines ingest offset lines).exit = exitOf (outcomesFrom ingest offset lines) := by
  induction lines generalizing offset with
  | nil => rfl
  | cons line lines ih =>
    rcases line_cases ingest offset line with h | ⟨h, c, ho⟩ | ⟨h, ho⟩
    · rw [drainLines_blank h, outcomesFrom_blank h, ih]
    · rw [drainLines_returned h ho, outcomesFrom_cons h, ho, exitOf, ih]
    · rw [drainLines_stop h ho, outcomesFrom_cons h]
      exact (exitOf_stop ho _).symm

/-- A batch that is safe and leaves the tick has committed nothing. -/
theorem keepsCommits_spec {ingest : Nat → List Char → Outcome} {offset : Nat}
    {lines : List (List Char)} {c : Bool}
    (h : keepsCommits c (outcomesFrom ingest offset lines) = true)
    (hexit : (drainLines ingest offset lines).exit ≠ .done) :
    c = false ∧ ∀ a ∈ (drainLines ingest offset lines).attempts, a.outcome.committed = false := by
  induction lines generalizing offset c with
  | nil => exact absurd rfl hexit
  | cons line lines ih =>
    rcases line_cases ingest offset line with hl | ⟨hl, c', ho⟩ | ⟨hl, ho⟩
    · rw [outcomesFrom_blank hl] at h
      rw [drainLines_blank hl] at hexit ⊢
      exact ih h hexit
    · rw [outcomesFrom_cons hl, ho, keepsCommits] at h
      rw [drainLines_returned hl ho] at hexit ⊢
      obtain ⟨hor, hrest⟩ := ih h hexit
      obtain ⟨rfl, rfl⟩ := Bool.or_eq_false_iff.mp hor
      refine ⟨rfl, fun a ha => ?_⟩
      rcases List.mem_cons.mp ha with rfl | ha
      · rfl
      · exact hrest a ha
    · rw [outcomesFrom_cons hl] at h
      rw [drainLines_stop hl ho] at hexit ⊢
      cases hout : ingest offset (trimBy pySpace line) with
      | returned c => exact absurd hout (ho c)
      | connectionError c' =>
        rw [hout, keepsCommits] at h
        simpa [Outcome.committed] using h
      | unnamed =>
        rw [hout, keepsCommits] at h
        simpa [Outcome.committed] using h
      | malformed | databaseError =>
        rw [hout] at hexit
        exact absurd rfl hexit

/-- The cursor that `drain_file` leaves. -/
theorem drainFile_eq (ingest : Nat → List Char → Outcome) (file : Bytes) (cursor : Nat) :
    drainFile ingest file cursor =
      let d := drainLines ingest cursor (splitCompleteLines (file.drop cursor)).1
      { d with offset := if d.exit = .done then d.offset else cursor } := by
  generalize hlines : (splitCompleteLines (file.drop cursor)).1 = lines
  rw [drainFile, hlines]
  by_cases hnil : lines = []
  · subst hnil
    rfl
  · have hle := (drainLines_ordered ingest cursor lines).end_le
    simp only [if_neg hnil]
    by_cases hexit : (drainLines ingest cursor lines).exit = .done
    · by_cases hlt : cursor < (drainLines ingest cursor lines).offset
      · rw [if_pos ⟨hexit, hlt⟩, if_pos hexit]
      · have heq : cursor = (drainLines ingest cursor lines).offset := by omega
        rw [if_neg fun h => hlt h.2, if_pos hexit, ← heq]
    · rw [if_neg fun h => hexit h.1, if_neg hexit]

/-! ## Lines and offsets -/

theorem LineAt.append {file : Bytes} {offset : Nat} {text : List Char} (h : LineAt file offset text)
    (bs : Bytes) : LineAt (file ++ bs) offset text := by
  obtain ⟨lines, line, rest, rfl, hrest⟩ := h
  refine ⟨lines, line, rest ++ bs, ?_, hrest⟩
  simp

/-- Over plain lines the loop's offsets are those of the file. -/
theorem drainLines_lineAt (ingest : Nat → List Char → Outcome) {lines before : List Bytes}
    {file rest : Bytes} (hfile : file = joinLines before ++ (joinLines lines ++ rest))
    (hbefore : ∀ l ∈ before, 10 ∉ l) (hlines : ∀ l ∈ lines, 10 ∉ l ∧ PlainLine l) :
    let d := drainLines ingest (joinLines before).length (lines.map decodeReplace)
    (∀ a ∈ d.attempts, LineAt file a.offset a.line) ∧
      ∃ done left, lines = done ++ left ∧ d.offset = (joinLines (before ++ done)).length := by
  induction lines generalizing before with
  | nil => exact ⟨by simp [drainLines], [], [], rfl, by simp [drainLines]⟩
  | cons line lines ih =>
    obtain ⟨hnl, hplain⟩ := hlines line List.mem_cons_self
    have hnext : (joinLines before).length + lineBytes (decodeReplace line) =
        (joinLines (before ++ [line])).length := by
      rw [lineBytes, hplain.2, joinLines_append]
      simp [joinLines]
    have hcut : file = joinLines (before ++ [line]) ++ (joinLines lines ++ rest) := by
      rw [hfile, joinLines_append, joinLines_cons, joinLines_cons]
      simp [joinLines]
    have hfirst : LineAt file (joinLines before).length (trimBy pySpace (decodeReplace line)) := by
      refine ⟨before, line, joinLines lines ++ rest, ?_, hnl, hbefore, rfl, rfl⟩
      rw [hfile, joinLines_cons, List.append_assoc, List.cons_append]
    have hbefore' : ∀ l ∈ before ++ [line], 10 ∉ l := by
      intro l hl
      rcases List.mem_append.mp hl with hl | hl
      · exact hbefore l hl
      · rw [List.mem_singleton.mp hl]
        exact hnl
    obtain ⟨hat, done, left, hdone, hoffset⟩ :=
      ih hcut hbefore' fun l hl => hlines l (List.mem_cons_of_mem line hl)
    have hdone' : line :: lines = (line :: done) ++ left := by rw [hdone, List.cons_append]
    have hoffset' := hoffset
    rw [List.append_assoc, List.singleton_append] at hoffset'
    rw [List.map_cons]
    rcases line_cases ingest (joinLines before).length (decodeReplace line) with
      h | ⟨h, c, ho⟩ | ⟨h, ho⟩
    · rw [drainLines_blank h, hnext]
      exact ⟨hat, line :: done, left, hdone', hoffset'⟩
    · rw [drainLines_returned h ho, hnext]
      refine ⟨fun a ha => ?_, line :: done, left, hdone', hoffset'⟩
      rcases List.mem_cons.mp ha with rfl | ha
      · exact hfirst
      · exact hat a ha
    · rw [drainLines_stop h ho]
      refine ⟨fun a ha => ?_, [], line :: lines, rfl, by rw [List.append_nil]⟩
      obtain rfl := List.mem_singleton.mp ha
      exact hfirst

theorem splitlines_plain {lines : List Bytes} (h : ∀ l ∈ lines, PlainLine l) :
    splitlines (decodeReplace (joinLines lines)) = lines.map decodeReplace := by
  rw [splitlines_joinLines]
  induction lines with
  | nil => rfl
  | cons line lines ih =>
    rw [List.flatMap_cons, splitlines_line (h line List.mem_cons_self).1,
      ih fun l hl => h l (List.mem_cons_of_mem line hl)]
    rfl

/-! ## One outbox -/

namespace Outbox

/-- The cursor stands at the start of a line, behind every line whose ingest has committed. -/
structure Inv (b : Outbox) : Prop where
  atLine : ∃ lines rest, b.file = joinLines lines ++ rest ∧ (∀ l ∈ lines, 10 ∉ l) ∧
    b.cursor = (joinLines lines).length
  plain : ∀ line ∈ newlineLines b.file, PlainLine line
  behind : ∀ a ∈ b.log, a.outcome.committed = true → a.offset < b.cursor
  noReplay : b.NoReplay

theorem Inv.append {b : Outbox} (h : b.Inv) (bs : Bytes)
    (hplain : ∀ line ∈ newlineLines (b.file ++ bs), PlainLine line) :
    Inv { b with file := b.file ++ bs } where
  atLine := by
    obtain ⟨lines, rest, hfile, hlines, hcursor⟩ := h.atLine
    exact ⟨lines, rest ++ bs, by rw [hfile, List.append_assoc], hlines, hcursor⟩
  plain := hplain
  behind := h.behind
  noReplay := ⟨h.noReplay.pairwise, fun a ha => (h.noReplay.lineAt a ha).append bs⟩

/-- Attempts at and behind the cursor, on lines of the file, that leave it behind what they have
committed. -/
theorem Inv.advance {b : Outbox} (h : b.Inv) {attempts : List Attempt} {cursor : Nat}
    (hstart : ∀ a ∈ attempts, b.cursor ≤ a.offset)
    (hincreasing : attempts.Pairwise fun a a' => a.offset < a'.offset)
    (hat : ∀ a ∈ attempts, LineAt b.file a.offset a.line) (hle : b.cursor ≤ cursor)
    (hbehind : ∀ a ∈ attempts, a.outcome.committed = true → a.offset < cursor)
    (hline : ∃ lines rest, b.file = joinLines lines ++ rest ∧ (∀ l ∈ lines, 10 ∉ l) ∧
      cursor = (joinLines lines).length) :
    Inv { b with
      cursor := cursor
      log := b.log ++ attempts } where
  atLine := hline
  plain := h.plain
  behind := by
    intro a ha hc
    rcases List.mem_append.mp ha with ha | ha
    · exact Nat.lt_of_lt_of_le (h.behind a ha hc) hle
    · exact hbehind a ha hc
  noReplay := by
    constructor
    · refine List.pairwise_append.mpr ⟨h.noReplay.pairwise, ?_, ?_⟩
      · refine hincreasing.imp ?_
        intro a a' hlt _
        exact Nat.ne_of_lt hlt
      · intro a ha a' ha' hc
        exact Nat.ne_of_lt (Nat.lt_of_lt_of_le (h.behind a ha hc) (hstart a' ha'))
    · intro a ha
      exact (List.mem_append.mp ha).elim (h.noReplay.lineAt a) (hat a)

theorem Inv.drain {b : Outbox} (h : b.Inv) {handler : Nat → Outcome}
    (hsafe : keepsCommits false (b.outcomes handler) = true) :
    (b.drain handler).1.Inv ∧ (b.drain handler).2 = exitOf (b.outcomes handler) := by
  obtain ⟨before, rest, hfile, hbefore, hcursor⟩ := h.atLine
  obtain ⟨hnl, tail, hrest, -⟩ := newlineLines_spec rest
  have hall : newlineLines b.file = before ++ newlineLines rest := by
    rw [hfile, newlineLines_join hbefore]
  have hplain : ∀ l ∈ newlineLines rest, PlainLine l := fun l hl =>
    h.plain l (hall ▸ List.mem_append_right _ hl)
  have hpieces : (splitCompleteLines (b.file.drop b.cursor)).1 =
      (newlineLines rest).map decodeReplace := by
    rw [hfile, hcursor, List.drop_left, splitCompleteLines_eq, splitlines_plain hplain]
  generalize newlineLines rest = lines at hnl hrest hplain hpieces
  rw [outcomes, hpieces] at hsafe ⊢
  generalize hingest : (fun offset => ingestOutboxLine (handler offset)) = ingest at hsafe
  obtain ⟨hat, done, left, hsplit, hoffset⟩ := drainLines_lineAt ingest
    (hrest ▸ hfile) hbefore fun l hl => ⟨hnl l hl, hplain l hl⟩
  rw [← hcursor] at hat hoffset
  have hord := drainLines_ordered ingest b.cursor (lines.map decodeReplace)
  have hexit := drainLines_exit ingest b.cursor (lines.map decodeReplace)
  have hkeeps := @keepsCommits_spec _ b.cursor _ _ hsafe
  rw [Outbox.drain, hingest, drainFile_eq, hpieces, ← hexit]
  generalize drainLines ingest b.cursor (lines.map decodeReplace) = d at *
  refine ⟨?_, rfl⟩
  apply h.advance hord.start_le hord.increasing hat
  · dsimp only
    split_ifs
    · exact hord.end_le
    · exact Nat.le_refl _
  · intro a ha hc
    dsimp only
    split_ifs with hdone
    · exact hord.behind a ha hc hdone
    · rw [(hkeeps hdone).2 a ha] at hc
      contradiction
  · dsimp only
    split_ifs
    · refine ⟨before ++ done, joinLines left ++ tail, ?_, ?_, hoffset⟩
      · rw [hfile, hrest, hsplit, joinLines_append, joinLines_append]
        simp
      · intro l hl
        rcases List.mem_append.mp hl with hl | hl
        · exact hbefore l hl
        · exact hnl l (hsplit ▸ List.mem_append_left _ hl)
    · exact h.atLine

end Outbox

/-! ## Ticks and runs -/

theorem tickFrom_spec {handler : Nat → Nat → Outcome} {i : Nat} {bs : List Outbox}
    (h : ∀ b ∈ bs, b.Inv) (hsafe : tickSafe handler i bs = true) :
    (∀ b ∈ (tickFrom handler i bs).1, b.Inv) ∧ (tickFrom handler i bs).1.length = bs.length ∧
      ((tickFrom handler i bs).2.exit ≠ .connectionError →
        (tickFrom handler i bs).2.drained = bs.length) := by
  induction bs generalizing i with
  | nil => exact ⟨by simp [tickFrom], rfl, fun _ => rfl⟩
  | cons b bs ih =>
    obtain ⟨hkeeps, hnext⟩ := Bool.and_eq_true_iff.mp hsafe
    obtain ⟨hb, hexit⟩ := (h b List.mem_cons_self).drain hkeeps
    rw [← hexit] at hnext
    have hbs : ∀ b' ∈ bs, b'.Inv := fun b' hb' => h b' (List.mem_cons_of_mem b hb')
    have hcons : ∀ {b' : Outbox} {bs' : List Outbox}, b'.Inv → (∀ c ∈ bs', c.Inv) →
        ∀ c ∈ b' :: bs', c.Inv := by
      intro b' bs' hb' hbs' c hc
      rcases List.mem_cons.mp hc with rfl | hc
      · exact hb'
      · exact hbs' c hc
    rw [tickFrom]
    generalize b.drain (handler i) = r at hb hexit hnext
    obtain ⟨b', exit⟩ := r
    cases exit with
    | done =>
      obtain ⟨hinv, hlen, hdrained⟩ := ih hbs hnext
      simp only [if_true]
      refine ⟨hcons hb hinv, by rw [List.length_cons, hlen, List.length_cons], fun hne => ?_⟩
      rw [hdrained hne, List.length_cons]
    | connectionError =>
      simp only [reduceCtorEq, if_false]
      exact ⟨hcons hb hbs, rfl, fun hne => absurd rfl hne⟩
    | unnamed =>
      obtain rfl : bs = [] := List.isEmpty_iff.mp hnext
      simp only [reduceCtorEq, if_false]
      exact ⟨hcons hb hbs, rfl, fun _ => rfl⟩

namespace Outboxes

def start (n : Nat) : Outboxes := ⟨List.replicate n {}, []⟩

structure Inv (s : Outboxes) : Prop where
  outbox : ∀ b ∈ s.outboxes, b.Inv
  drained : ∀ r ∈ s.ticks, r.exit ≠ .connectionError → r.drained = s.outboxes.length

theorem Inv.step {s : Outboxes} {e : WatcherEvent} (h : s.Inv) (hsafe : s.Safe e) :
    (s.step e).Inv := by
  cases e with
  | append i bs =>
    constructor
    · intro b hb
      have hplain := hsafe b hb
      obtain ⟨j, hj, rfl⟩ := List.mem_iff_getElem.mp hb
      have hlen : j < s.outboxes.length := by simpa [Outboxes.step] using hj
      have hold := h.outbox _ (List.getElem_mem hlen)
      by_cases hij : i = j
      · subst hij
        have hnew : (s.step (.append i bs)).outboxes[i] =
            { s.outboxes[i] with file := s.outboxes[i].file ++ bs } := by
          simp [Outboxes.step]
        rw [hnew] at hplain ⊢
        exact hold.append bs hplain
      · have hsame : (s.step (.append i bs)).outboxes[j] = s.outboxes[j] := by
          simp [Outboxes.step, hij]
        rw [hsame]
        exact hold
    · intro r hr hne
      rw [h.drained r hr hne]
      simp [Outboxes.step]
  | tick handler =>
    obtain ⟨hinv, hlen, hdrained⟩ := tickFrom_spec h.outbox hsafe
    refine ⟨hinv, fun r hr hne => ?_⟩
    change r.drained = (tickFrom handler 0 s.outboxes).1.length
    rw [hlen]
    rcases List.mem_append.mp hr with hr | hr
    · exact h.drained r hr hne
    · obtain rfl := List.mem_singleton.mp hr
      exact hdrained hne

theorem start_inv (n : Nat) : (start n).Inv := by
  refine ⟨fun b hb => ?_, by simp [start]⟩
  obtain rfl := List.eq_of_mem_replicate hb
  refine ⟨⟨[], [], rfl, by simp, rfl⟩, by simp [newlineLines], by simp, ?_⟩
  exact ⟨List.Pairwise.nil, by simp⟩

theorem ticks_correct {n : Nat} {es : List WatcherEvent} {s : Outboxes}
    (h : Run (fun s e t => s.Safe e ∧ s.step e = t) (start n) es s) : s.Correct := by
  have hinv : s.Inv := by
    refine h.invariant (I := fun _ s => s.Inv) (start_inv n) ?_
    rintro _ s _ e hs ⟨hsafe, rfl⟩
    exact hs.step hsafe
  exact ⟨fun b hb => (hinv.outbox b hb).noReplay, hinv.drained⟩

def costLine : Bytes := encodeUtf8 "\x7b\"type\":\"cost\"\x7d\n".toList

/-- A refused line stays, the outbox after it is drained, and both go through later. -/
theorem ticks_correct_two : (⟨[
    ⟨costLine, 16, [⟨0, "\x7b\"type\":\"cost\"\x7d".toList, .databaseError⟩,
      ⟨0, "\x7b\"type\":\"cost\"\x7d".toList, .returned true⟩]⟩,
    ⟨costLine, 16, [⟨0, "\x7b\"type\":\"cost\"\x7d".toList, .returned true⟩]⟩],
    [⟨2, .done⟩, ⟨2, .done⟩]⟩ : Outboxes).Correct := by
  have hrun : Run (fun (s : Outboxes) e t => s.Safe e ∧ some (s.step e) = some t) (start 2)
      [.append 0 costLine, .append 1 costLine,
        .tick fun i _ => if i = 0 then .databaseError else .returned true,
        .tick fun _ _ => .returned true] ⟨[
      ⟨costLine, 16, [⟨0, "\x7b\"type\":\"cost\"\x7d".toList, .databaseError⟩,
        ⟨0, "\x7b\"type\":\"cost\"\x7d".toList, .returned true⟩]⟩,
      ⟨costLine, 16, [⟨0, "\x7b\"type\":\"cost\"\x7d".toList, .returned true⟩]⟩],
      [⟨2, .done⟩, ⟨2, .done⟩]⟩ :=
    Run.of_guarded_foldlM (by decide +kernel)
  exact ticks_correct (hrun.mono fun h => ⟨h.1, Option.some.inj h.2⟩)

/-- The first line's ingest has committed twice. -/
def replayed : Outbox := ⟨costLine ++ costLine, 32, [
  ⟨0, "\x7b\"type\":\"cost\"\x7d".toList, .returned true⟩,
  ⟨16, "\x7b\"type\":\"cost\"\x7d".toList, .connectionError false⟩,
  ⟨0, "\x7b\"type\":\"cost\"\x7d".toList, .returned true⟩,
  ⟨16, "\x7b\"type\":\"cost\"\x7d".toList, .returned true⟩]⟩

/-- A commit before a lost connection is ingested again; a line that is no JSON object keeps the
tick from the outbox after it. -/
theorem replay_after_lost_connection :
    (¬ (⟨[replayed], [⟨1, .connectionError⟩, ⟨1, .done⟩]⟩ : Outboxes).Correct ∧
      Run (fun s e t => s.step e = t) (start 1)
        [.append 0 (costLine ++ costLine),
          .tick fun _ offset => if offset = 0 then .returned true else .connectionError false,
          .tick fun _ _ => .returned true]
        ⟨[replayed], [⟨1, .connectionError⟩, ⟨1, .done⟩]⟩) ∧
    ¬ (⟨[⟨encodeUtf8 "[]\n".toList, 0, [⟨0, "[]".toList, .unnamed⟩]⟩, ⟨costLine, 0, []⟩],
        [⟨1, .unnamed⟩]⟩ : Outboxes).Correct ∧
      Run (fun s e t => s.step e = t) (start 2)
        [.append 0 (encodeUtf8 "[]\n".toList), .append 1 costLine,
          .tick fun _ _ => .returned true]
        ⟨[⟨encodeUtf8 "[]\n".toList, 0, [⟨0, "[]".toList, .unnamed⟩]⟩, ⟨costLine, 0, []⟩],
          [⟨1, .unnamed⟩]⟩ := by
  refine ⟨⟨?_, ?_⟩, ?_, ?_⟩
  · intro h
    have hpairs := (h.noReplay replayed List.mem_cons_self).pairwise
    revert hpairs
    decide +kernel
  · exact Run.of_foldl (by decide +kernel)
  · intro h
    have hcount := h.drained _ List.mem_cons_self
    revert hcount
    decide
  · exact Run.of_foldl (by decide +kernel)

end Outboxes
end SpineFormal.Watcher
