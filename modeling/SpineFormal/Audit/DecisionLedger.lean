import Mathlib.Data.List.DropRight
import SpineFormal.Audit.LedgerEntry
import SpineFormal.Json.Scan

/-!
# The decision ledger file

`DecisionLedger` of `shared/audit/decision_ledger.py`: one canonical JSON line
per entry. `append` finds its predecessor in the last 4096 bytes of the file,
`iter_entries` reads the file from the start. The file is ASCII throughout, so a
byte is a character here.
-/

namespace SpineFormal.Audit

open Json
set_option autoImplicit false

/-- `LedgerEntry.model_validate_json`: it reads back what `model_dump` wrote, and
it accepts nothing that is not a JSON document. -/
structure EntryReader where
  validate : List Char → Option LedgerEntry
  round_trip : ∀ e : LedgerEntry, validate (dumps (.obj e.members)) = some e
  json_only : ∀ {s : List Char} {e : LedgerEntry}, validate s = some e → ∃ v, loads s = some v

/-- A reader: parse, then read the fields. -/
def fieldReader : EntryReader where
  validate s := (loads s).bind entryCodec.read
  round_trip e := by
    rw [dumps, loads_encode]
    exact entryCodec.read_dump e
  json_only h := by
    obtain ⟨v, hv, _⟩ := Option.bind_eq_some_iff.mp h
    exact ⟨v, hv⟩

structure DecisionLedger where
  projectId : NonemptyText
  runId : NonemptyText

inductive LedgerError where
  | projectMismatch (entry ledger : String)
  | runMismatch (entry ledger : String)
  | noCandidates
  /-- `obj.get` on a line that is valid JSON but no object. -/
  | notAnObject
  /-- A `content_hash` that is not text: no ledger line has one. -/
  | contentHashType

abbrev LedgerFile := List Char

/-! ## Lines -/

def isLineEnd (c : Char) : Bool := c == '\n' || c == '\r'

/-- Pieces between line ends. Both readers skip blank pieces, so the empty one
after the last line end and between `\r\n` does not matter. -/
def splitLines : List Char → List (List Char)
  | [] => [[]]
  | c :: s =>
    if isLineEnd c then [] :: splitLines s
    else
      match splitLines s with
      | [] => [[c]]
      | l :: ls => (c :: l) :: ls

/-- ASCII whitespace, as `bytes.strip` has it. -/
def isSpace (c : Char) : Bool :=
  c == ' ' || c == '\t' || c == '\n' || c == '\r' || c == '\x0b' || c == '\x0c'

/-- `str.strip` on ASCII text also strips the information separators. -/
def isStrSpace (c : Char) : Bool := isSpace c || (28 ≤ c.toNat && c.toNat ≤ 31)

def strip (l : List Char) : List Char := (l.dropWhile isStrSpace).rdropWhile isStrSpace

/-! ## Operations -/

/-- `obj.get("content_hash")`. -/
def hashOf : Value → Except LedgerError (Option String)
  | .obj ms =>
    match dictGet ms "content_hash" with
    | none => .ok none
    | some .null => .ok none
    | some (.str s) => .ok (some s)
    | some _ => .error .contentHashType
  | _ => .error .notAnObject

/-- The loop of `_last_hash_locked`, over the lines from the last one back. -/
def findHash : Option String → List (List Char) → Except LedgerError (Option String)
  | last, [] => .ok last
  | last, l :: ls =>
    if l.all isSpace then findHash last ls
    else
      match loads l with
      | none => findHash last ls
      | some v =>
        match hashOf v with
        | .error e => .error e
        | .ok none => findHash none ls
        | .ok (some h) => if h = "" then findHash (some h) ls else .ok (some h)

def windowSize : Nat := 4096

/-- What is left to read after `seek(-4096, SEEK_END)`, or after `seek(0)`. -/
def tailWindow (f : LedgerFile) : List Char := f.drop (f.length - windowSize)

/-- `_last_hash_locked`. -/
def lastHash (f : LedgerFile) : Except LedgerError (Option String) :=
  findHash none (splitLines (tailWindow f)).reverse

def LedgerEntry.line (e : LedgerEntry) : List Char := dumps (.obj e.members)

/-- `append`: the file afterwards and the entry returned. -/
def append (l : DecisionLedger) (f : LedgerFile) (e : LedgerEntry) :
    Except LedgerError (LedgerFile × LedgerEntry) :=
  if e.projectId ≠ l.projectId then .error (.projectMismatch e.projectId.1 l.projectId.1)
  else if e.runId ≠ l.runId then .error (.runMismatch e.runId.1 l.runId.1)
  else if e.candidates.isEmpty then .error .noCandidates
  else
    match lastHash f with
    | .error err => .error err
    | .ok prevHash => .ok (f ++ ((e.chain prevHash).line ++ ['\n']), e.chain prevHash)

/-- Appends one after another; the first one that raises ends the sequence. -/
def appendAll (l : DecisionLedger) :
    LedgerFile → List LedgerEntry → Except LedgerError (LedgerFile × List LedgerEntry)
  | f, [] => .ok (f, [])
  | f, e :: es =>
    match append l f e with
    | .error err => .error err
    | .ok (f', e') =>
      match appendAll l f' es with
      | .error err => .error err
      | .ok (f'', es') => .ok (f'', e' :: es')

/-- What `iter_entries` yields, and whether it then raises `ValidationError`. -/
structure Iteration where
  yielded : List LedgerEntry
  raised : Bool

section
variable (r : EntryReader)

def iterLines : List (List Char) → Iteration
  | [] => ⟨[], false⟩
  | l :: ls =>
    if strip l = [] then iterLines ls
    else
      match r.validate (strip l) with
      | none => ⟨[], true⟩
      | some e => ⟨e :: (iterLines ls).yielded, (iterLines ls).raised⟩

def iterEntries (f : LedgerFile) : Iteration := iterLines r (splitLines f)

/-- `verify_chain`; `none` when the iteration raises before a mismatch is found. -/
def verifyChain (f : LedgerFile) : Option (Bool × Option String) :=
  match verifyEntries (iterEntries r f).yielded with
  | (true, none) => if (iterEntries r f).raised then none else some (true, none)
  | verdict => some verdict

end

/-- The arguments `append` accepts. -/
def Accepts (l : DecisionLedger) (e : LedgerEntry) : Prop :=
  e.projectId = l.projectId ∧ e.runId = l.runId ∧ e.candidates ≠ []

end SpineFormal.Audit
