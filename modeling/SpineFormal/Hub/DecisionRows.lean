import SpineFormal.Base.KeyedTable
import SpineFormal.Base.LineFile
import SpineFormal.Hub.Decisions
import SpineFormal.Json.Jsonb
import SpineFormal.Json.Strings

/-!
# Decision cards and their rows

A card is written to the table `decision_card` under the canonical text of its id and read
back from there. The row has no column for the card's actions and keeps a project only by its
number, and a row that is there keeps its kind and its project.
-/

namespace SpineFormal.Hub.Cards

open Json
set_option autoImplicit false

/-! ## Identifiers -/

/-- `str.replace(sub, "")`, with the number of characters of a found text still to be dropped. -/
def dropAll (sub : List Char) : Nat → List Char → List Char
  | _, [] => []
  | skip + 1, _ :: s => dropAll sub skip s
  | 0, c :: s =>
    if sub.isPrefixOf (c :: s) then dropAll sub (sub.length - 1) s else c :: dropAll sub 0 s

def brace (c : Char) : Bool := c = '\x7b' || c = '\x7d'

/-- What `uuid.UUID` takes for the hexadecimal digits of a text. -/
def uuidHex (s : List Char) : List Char :=
  (trimBy brace (dropAll "uuid:".toList 0 (dropAll "urn:".toList 0 s))).filter (· ≠ '-')

def isHex (c : Char) : Bool := (hexVal c).isSome

def lowerHex (c : Char) : Char := Nat.digitChar ((hexVal c).getD 0)

/-- `str(uuid)` for 32 hexadecimal digits. -/
def dashed (h : List Char) : List Char :=
  h.take 8 ++ '-' :: ((h.drop 8).take 4 ++ '-' :: ((h.drop 12).take 4 ++ '-' ::
    ((h.drop 16).take 4 ++ '-' :: h.drop 20)))

/-- `_to_uuid_str`. -/
def toUuidStr (decisionId : String) : Option String :=
  let h := uuidHex decisionId.toList
  if h.length = 32 ∧ h.all isHex = true then some (String.ofList (dashed (h.map lowerHex)))
  else none

theorem dropAll_eq_self {sub s : List Char} {x : Char} (hsub : x ∈ sub) (hs : x ∉ s) :
    dropAll sub 0 s = s := by
  induction s with
  | nil => rfl
  | cons c s ih =>
    have hpre : ¬ sub.isPrefixOf (c :: s) = true := by
      rw [List.isPrefixOf_iff_prefix]
      intro hpre
      exact hs (hpre.subset hsub)
    rw [dropAll, if_neg hpre, ih fun h => hs (List.mem_cons_of_mem c h)]

theorem hexVal_lt {c : Char} {d : Nat} (h : hexVal c = some d) : d < 16 := by
  rw [hexVal] at h
  split_ifs at h with hupper
  · obtain rfl := Option.some.inj h
    have hle : c.toNat ≤ 70 := hupper.2
    omega
  · rw [Numerals.digitVal] at h
    split_ifs at h with hdigit hlower
    · obtain rfl := Option.some.inj h
      have hle : c.toNat ≤ 57 := hdigit.2
      omega
    · obtain rfl := Option.some.inj h
      have hle : c.toNat ≤ 102 := hlower.2
      omega

theorem lowerHex_mem {c : Char} (h : isHex c = true) : ∃ d < 16, lowerHex c = Nat.digitChar d := by
  obtain ⟨d, hd⟩ := Option.isSome_iff_exists.mp h
  exact ⟨d, hexVal_lt hd, by rw [lowerHex, hd, Option.getD_some]⟩

/-- A digit as `str` writes it is a digit, and no other mark of an identifier. -/
theorem digitChar_plain : ∀ d < 16, isHex (Nat.digitChar d) = true ∧
    lowerHex (Nat.digitChar d) = Nat.digitChar d ∧ Nat.digitChar d ≠ '-' ∧
    Nat.digitChar d ≠ ':' ∧ brace (Nat.digitChar d) = false := by
  decide

theorem filter_dashed {h : List Char} (hdash : '-' ∉ h) : (dashed h).filter (· ≠ '-') = h := by
  have hkeep : ∀ s : List Char, (∀ c ∈ s, c ∈ h) → s.filter (· ≠ '-') = s := by
    intro s hs
    apply List.filter_eq_self.mpr
    intro c hc
    apply decide_eq_true
    rintro rfl
    exact hdash (hs _ hc)
  have hdrop : ∀ n, ∀ c ∈ h.drop n, c ∈ h := fun n c hc => List.mem_of_mem_drop hc
  have htake : ∀ m n, ∀ c ∈ (h.drop n).take m, c ∈ h :=
    fun m n c hc => List.mem_of_mem_drop (List.mem_of_mem_take hc)
  have hfirst : ∀ c ∈ h.take 8, c ∈ h := fun c hc => List.mem_of_mem_take hc
  have hskip : ∀ s : List Char, ('-' :: s).filter (· ≠ '-') = s.filter (· ≠ '-') :=
    fun s => List.filter_cons_of_neg (by decide)
  rw [dashed, List.filter_append, hskip, List.filter_append, hskip, List.filter_append, hskip,
    List.filter_append, hskip, hkeep _ hfirst, hkeep _ (htake 4 8), hkeep _ (htake 4 12),
    hkeep _ (htake 4 16), hkeep _ (hdrop 20)]
  have hnext : ∀ n, (h.drop n).take 4 ++ h.drop (n + 4) = h.drop n := by
    intro n
    rw [← List.drop_drop, List.take_append_drop]
  rw [hnext 16, hnext 12, hnext 8, List.take_append_drop]

theorem mem_dashed {h : List Char} {c : Char} (hc : c ∈ dashed h) : c = '-' ∨ c ∈ h := by
  simp only [dashed, List.mem_append, List.mem_cons] at hc
  rcases hc with hc | rfl | hc | rfl | hc | rfl | hc | rfl | hc
  · exact Or.inr (List.mem_of_mem_take hc)
  · exact Or.inl rfl
  · exact Or.inr (List.mem_of_mem_drop (List.mem_of_mem_take hc))
  · exact Or.inl rfl
  · exact Or.inr (List.mem_of_mem_drop (List.mem_of_mem_take hc))
  · exact Or.inl rfl
  · exact Or.inr (List.mem_of_mem_drop (List.mem_of_mem_take hc))
  · exact Or.inl rfl
  · exact Or.inr (List.mem_of_mem_drop hc)

/-- The canonical text of an identifier is its own canonical text. -/
theorem toUuidStr_canonical {s t : String} (h : toUuidStr s = some t) : toUuidStr t = some t := by
  rw [toUuidStr] at h
  split_ifs at h with hvalid
  obtain rfl := Option.some.inj h
  obtain ⟨hlength, hall⟩ := hvalid
  generalize hdigits : (uuidHex s.toList).map lowerHex = l
  have hl : ∀ c ∈ l, ∃ d < 16, c = Nat.digitChar d := by
    intro c hc
    rw [← hdigits] at hc
    obtain ⟨x, hx, rfl⟩ := List.mem_map.mp hc
    exact lowerHex_mem (List.all_eq_true.mp hall x hx)
  have hlen : l.length = 32 := by rw [← hdigits, List.length_map, hlength]
  have hdash : '-' ∉ l := by
    intro hmem
    obtain ⟨d, hd, heq⟩ := hl _ hmem
    exact (digitChar_plain d hd).2.2.1 heq.symm
  have hcolon : ':' ∉ dashed l := by
    intro hmem
    rcases mem_dashed hmem with h | h
    · cases h
    · obtain ⟨d, hd, heq⟩ := hl _ h
      exact (digitChar_plain d hd).2.2.2.1 heq.symm
  have hbrace : ∀ c ∈ dashed l, brace c = false := by
    intro c hc
    rcases mem_dashed hc with rfl | h
    · decide
    · obtain ⟨d, hd, rfl⟩ := hl _ h
      exact (digitChar_plain d hd).2.2.2.2
  have hhex : uuidHex (dashed l) = l := by
    rw [uuidHex, dropAll_eq_self (x := ':') (by decide) hcolon,
      dropAll_eq_self (x := ':') (by decide) hcolon, trimBy_eq_self hbrace, filter_dashed hdash]
  have hlower : l.map lowerHex = l := by
    have hsame : ∀ c ∈ l, lowerHex c = id c := by
      intro c hc
      obtain ⟨d, hd, rfl⟩ := hl c hc
      exact (digitChar_plain d hd).2.1
    rw [List.map_congr_left hsame, List.map_id]
  have hall' : l.all isHex = true := by
    apply List.all_eq_true.mpr
    intro c hc
    obtain ⟨d, hd, rfl⟩ := hl c hc
    exact (digitChar_plain d hd).1
  rw [toUuidStr, String.toList_ofList, hhex, if_pos ⟨hlen, hall'⟩, hlower]

/-- An identifier as the database writes it. -/
abbrev UuidText := { s : String // toUuidStr s = some s }

def toUuid (decisionId : String) : Option UuidText :=
  (toUuidStr decisionId).pmap (fun t h => ⟨t, toUuidStr_canonical h⟩) fun _ h => h

theorem toUuid_val (decisionId : String) :
    (toUuid decisionId).map Subtype.val = toUuidStr decisionId := by
  rw [toUuid, Option.map_pmap, Option.pmap_eq_map, Option.map_id']

/-! ## Cards and rows -/

inductive Severity where
  | info
  | warning
  | critical
  deriving DecidableEq

structure DecisionCard where
  decisionId : String
  decisionClass : String
  projectId : Option String := none
  title : String
  body : String := ""
  severity : Severity := .info
  actions : List String := ["ack", "reject"]
  status : DecisionStatus := .pending
  /-- In microseconds, as a timestamp column takes it. -/
  createdAt : Int
  expiresAt : Option Int := none
  metadata : Members := []
  citations : List Members := []
  classLength : 1 ≤ decisionClass.length ∧ decisionClass.length ≤ 64 := by decide
  titleLength : 1 ≤ title.length ∧ title.length ≤ 200 := by decide
  bodyLength : body.length ≤ 64000 := by decide
  metadataDict : (Value.obj metadata).Distinct

/-- A row of `spine_lifecycle.decision_card`. -/
structure DecisionRow where
  id : UuidText
  projectId : Option Int
  kind : String
  title : String
  body : String
  severity : Severity
  status : DecisionStatus
  pushedAt : Int
  expiresAt : Option Int
  citations : Value
  metadata : Value
  metadataDict : metadata.Distinct

/-- `str(v)`; `repr` writes what is neither a text nor an integer. -/
def pyStr (repr : Value → String) : Value → String
  | .str s => s
  | .int n => String.ofList (Numerals.decimal n)
  | v => repr v

def members : Value → Members
  | .obj ms => ms
  | _ => []

def elements : Value → List Value
  | .arr xs => xs
  | _ => []

def asDict : Value → Option Members
  | .obj ms => some ms
  | _ => none

/-- The project that the metadata names. -/
def metadataProject (repr : Value → String) (metadata : Members) : Option String :=
  match dictGet metadata "project_uuid" with
  | none => none
  | some .null => none
  | some v => some (pyStr repr v)

def projectText (repr : Value → String) (column : Option Int) (metadata : Members) :
    Option String :=
  match column with
  | some n => some (String.ofList (Numerals.decimal n))
  | none => metadataProject repr metadata

theorem members_distinct {v : Value} (h : v.Distinct) : (Value.obj (members v)).Distinct := by
  cases v with
  | obj ms => exact h
  | _ => exact distinct_empty

/-- `row.get("kind") or "approval"`. -/
def kindText (kind : String) : String := if kind = "" then "approval" else kind

/-- `_row_to_card`; `none` when the model rejects the values. -/
def rowToCard (repr : Value → String) (r : DecisionRow) : Option DecisionCard :=
  match (elements r.citations).mapM asDict with
  | none => none
  | some citations =>
    if h : (1 ≤ (kindText r.kind).length ∧ (kindText r.kind).length ≤ 64) ∧
        (1 ≤ r.title.length ∧ r.title.length ≤ 200) ∧ r.body.length ≤ 64000 then
      some {
        decisionId := r.id
        decisionClass := kindText r.kind
        projectId := projectText repr r.projectId (members r.metadata)
        title := r.title
        body := r.body
        severity := r.severity
        status := r.status
        createdAt := r.pushedAt
        expiresAt := r.expiresAt
        metadata := members r.metadata
        citations := citations
        classLength := h.1
        titleLength := h.2.1
        bodyLength := h.2.2
        metadataDict := members_distinct r.metadataDict }
    else none

/-! ## Writing -/

/-- What `isdigit` and `int` make of a character. -/
inductive DigitKind where
  | none
  /-- A digit for `isdigit` which `int` refuses. -/
  | refused
  | value (n : Nat)

/-- `other` knows the characters outside ASCII. -/
def digitKind (other : Char → DigitKind) (c : Char) : DigitKind :=
  if c.isDigit then .value (c.toNat - 48) else if c.toNat < 128 then .none else other c

/-- `str.isdigit`. -/
def isDigits (other : Char → DigitKind) (s : List Char) : Bool :=
  !s.isEmpty && s.all fun c =>
    match digitKind other c with
    | .none => false
    | _ => true

/-- `int` of a text of digits; `none` is `ValueError`. -/
def intOfDigits (other : Char → DigitKind) : Nat → List Char → Option Nat
  | acc, [] => some acc
  | acc, c :: s =>
    match digitKind other c with
    | .value n => intOfDigits other (acc * 10 + n) s
    | _ => none

/-- The number that `_persist_put` stores for the project. -/
def projectNumber (other : Char → DigitKind) (projectId : Option String) : Option (Option Nat) :=
  match projectId with
  | none => some none
  | some s =>
    if isDigits other s.toList then (intOfDigits other 0 s.toList).map some else some none

def bigint (n : Nat) : Bool := n < 2 ^ 63

/-- The table, and what else a statement on it depends on. -/
structure Database where
  rows : List DecisionRow
  /-- The ids in `spine_lifecycle.project`. -/
  projects : List Int
  reachable : Bool := true
  primaryKey : (rows.map DecisionRow.id).Nodup

namespace Database

variable (db : Database)

def row (id : UuidText) : Option DecisionRow := db.rows.find? fun r => r.id = id

/-- `ON CONFLICT (id) DO UPDATE`. -/
def update (r new : DecisionRow) : DecisionRow :=
  { r with
    title := new.title
    body := new.body
    severity := new.severity
    status := new.status
    citations := new.citations
    metadata := new.metadata
    metadataDict := new.metadataDict }

def upsertRows (new : DecisionRow) : List DecisionRow → List DecisionRow
  | [] => [new]
  | r :: rs => if r.id = new.id then update r new :: rs else r :: upsertRows new rs

theorem ids_upsertRows (new : DecisionRow) (rs : List DecisionRow) :
    (upsertRows new rs).map DecisionRow.id =
      if new.id ∈ rs.map DecisionRow.id then rs.map DecisionRow.id
      else rs.map DecisionRow.id ++ [new.id] := by
  induction rs with
  | nil => rfl
  | cons r rs ih =>
    rw [upsertRows]
    by_cases hid : r.id = new.id
    · rw [if_pos hid, if_pos (by simp [hid])]
      rfl
    · rw [if_neg hid, List.map_cons, ih]
      by_cases hmem : new.id ∈ rs.map DecisionRow.id
      · rw [if_pos hmem, if_pos (by simpa using Or.inr (by simpa using hmem))]
        rfl
      · rw [if_neg hmem, if_neg]
        · rfl
        · rw [List.map_cons, List.mem_cons, not_or]
          exact ⟨fun h => hid h.symm, hmem⟩

def upsert (new : DecisionRow) : Database where
  rows := upsertRows new db.rows
  projects := db.projects
  reachable := db.reachable
  primaryKey := by
    rw [ids_upsertRows]
    split_ifs with hmem
    · exact db.primaryKey
    · rw [← List.concat_eq_append]
      exact List.Nodup.concat hmem db.primaryKey

/-- The checks of the table on the row that `_INSERT_SQL` writes. -/
def accepts (card : DecisionCard) (id : UuidText) (project : Option Nat) : Bool :=
  db.reachable && NoNul card.decisionClass && NoNul card.title && NoNul card.body &&
    (Value.obj card.metadata).jsonbInput &&
    (Value.arr (card.citations.map Value.obj)).jsonbInput &&
    project.all bigint &&
    ((db.row id).isSome || project.all fun n => db.projects.contains (n : Int))

end Database

/-- The values of `_INSERT_SQL`. -/
def cardRow (card : DecisionCard) (id : UuidText) (project : Option Nat) : DecisionRow where
  id := id
  projectId := project.map Int.ofNat
  kind := card.decisionClass
  title := card.title
  body := card.body
  severity := card.severity
  status := card.status
  pushedAt := card.createdAt
  expiresAt := card.expiresAt
  citations := (Value.arr (card.citations.map Value.obj)).jsonb
  metadata := (Value.obj card.metadata).jsonb
  metadataDict := jsonb_distinct card.metadataDict

/-- The id and the project under which a card is written, when neither stops `_persist_put`. -/
def putKeys (other : Char → DigitKind) (card : DecisionCard) : Option (UuidText × Option Nat) :=
  match toUuid card.decisionId, projectNumber other card.projectId with
  | some id, some project => some (id, project)
  | _, _ => none

/-- `_persist_put`; a statement that fails and an exception leave the table as it is. -/
def persistPut (other : Char → DigitKind) (db : Database) (card : DecisionCard) : Database :=
  match putKeys other card with
  | none => db
  | some (id, project) =>
    if db.accepts card id project then db.upsert (cardRow card id project) else db

/-- `_hydrate`; `none` when there is no row or the model rejects it. -/
def hydrate (repr : Value → String) (db : Database) (decisionId : String) : Option DecisionCard :=
  match toUuid decisionId with
  | none => none
  | some id => if db.reachable then (db.row id).bind (rowToCard repr) else none

/-! ## What comes back -/

/-- The fields of a card that a row is to give back; the keys of a `dict` have no order. -/
structure SameCard (a b : DecisionCard) : Prop where
  id : a.decisionId = b.decisionId
  project : a.projectId = b.projectId
  kind : a.decisionClass = b.decisionClass
  title : a.title = b.title
  body : a.body = b.body
  actions : a.actions = b.actions
  metadata : (Value.obj a.metadata).sortKeys = (Value.obj b.metadata).sortKeys
  status : a.status = b.status

theorem row_upsert (db : Database) (new : DecisionRow) : (db.upsert new).row new.id =
    some (match db.row new.id with
      | some r => Database.update r new
      | none => new) := by
  obtain ⟨rows, projects, reachable, key⟩ := db
  simp only [Database.row, Database.upsert]
  clear key
  induction rows with
  | nil => simp [Database.upsertRows]
  | cons r rs ih =>
    rw [Database.upsertRows]
    by_cases hid : r.id = new.id
    · rw [if_pos hid, List.find?_cons_of_pos (by simp [Database.update, hid]),
        List.find?_cons_of_pos (by simp [hid])]
    · rw [if_neg hid, List.find?_cons_of_neg (by simp [hid]),
        List.find?_cons_of_neg (by simp [hid]), ih]

section ReadBack

variable {repr : Value → String} {r : DecisionRow}

theorem rowToCard_some {c : DecisionCard} (h : rowToCard repr r = some c) :
    c.decisionId = r.id ∧ c.decisionClass = kindText r.kind ∧
      c.projectId = projectText repr r.projectId (members r.metadata) ∧ c.title = r.title ∧
      c.body = r.body ∧ c.actions = ["ack", "reject"] ∧ c.metadata = members r.metadata ∧
      c.status = r.status := by
  rw [rowToCard] at h
  split at h
  · cases h
  · split_ifs at h
    obtain rfl := Option.some.inj h
    exact ⟨rfl, rfl, rfl, rfl, rfl, rfl, rfl, rfl⟩

/-- A row with the citations and the texts of a card is accepted by the model. -/
theorem rowToCard_isSome (card : DecisionCard)
    (hcitations : r.citations = (Value.arr (card.citations.map Value.obj)).jsonb)
    (hkind : kindText r.kind = card.decisionClass) (htitle : r.title = card.title)
    (hbody : r.body = card.body) : ∃ c, rowToCard repr r = some c := by
  have hdicts : ∃ citations, (elements r.citations).mapM asDict = some citations := by
    rw [hcitations, jsonb_arr, elements]
    generalize card.citations = cs
    induction cs with
    | nil => exact ⟨[], rfl⟩
    | cons ms cs ih =>
      obtain ⟨ms', hms, -⟩ := jsonb_obj ms
      obtain ⟨rest, hrest⟩ := ih
      refine ⟨ms' :: rest, ?_⟩
      rw [List.map_cons, List.map_cons, hms, List.mapM_cons, hrest]
      rfl
  obtain ⟨citations, hc⟩ := hdicts
  have hbounds : (1 ≤ (kindText r.kind).length ∧ (kindText r.kind).length ≤ 64) ∧
      (1 ≤ r.title.length ∧ r.title.length ≤ 200) ∧ r.body.length ≤ 64000 := by
    rw [hkind, htitle, hbody]
    exact ⟨card.classLength, card.titleLength, card.bodyLength⟩
  rw [rowToCard, hc]
  exact ⟨_, dif_pos hbounds⟩

theorem toUuid_some {s : String} {id : UuidText} (h : toUuid s = some id) :
    toUuidStr s = some id.val := by
  rw [← toUuid_val, h]
  rfl

theorem hydrate_some {db : Database} {s : String} {c : DecisionCard}
    (h : hydrate repr db s = some c) : ∃ id r, toUuid s = some id ∧ db.row id = some r ∧
      rowToCard repr r = some c ∧ r.id = id := by
  rw [hydrate] at h
  split at h
  · cases h
  · rename_i id hid
    split_ifs at h
    obtain ⟨r, hr, hc⟩ := Option.bind_eq_some_iff.mp h
    have hrid : r.id = id := by simpa using List.find?_some hr
    exact ⟨id, r, hid, hr, hc, hrid⟩

/-- A card that comes back had its canonical id and the actions that every row reads back with. -/
theorem sameCard_hydrate {db : Database} {c card : DecisionCard}
    (h : hydrate repr db card.decisionId = some c) (hsame : SameCard c card) :
    toUuidStr card.decisionId = some card.decisionId ∧ card.actions = ["ack", "reject"] := by
  obtain ⟨id, r, hid, -, hc, rfl⟩ := hydrate_some h
  obtain ⟨hcid, -, -, -, -, hactions, -, -⟩ := rowToCard_some hc
  have hcanonical := toUuid_some hid
  rw [← hcid, hsame.id] at hcanonical
  exact ⟨hcanonical, hsame.actions.symm.trans hactions⟩

end ReadBack

/-- The project column of the row once the card is written. -/
def projectColumn (db : Database) (id : UuidText) (project : Option Nat) : Option Int :=
  match db.row id with
  | some r => r.projectId
  | none => project.map Int.ofNat

/-- The write goes through, and the row keeps the rest of the card. -/
structure Stored (repr : Value → String) (db : Database) (card : DecisionCard) (id : UuidText)
    (project : Option Nat) : Prop where
  accepted : db.accepts card id project = true
  kind : ∀ r ∈ db.row id, kindText r.kind = card.decisionClass
  project : projectText repr (projectColumn db id project)
    (members (Value.obj card.metadata).jsonb) = card.projectId
  floats : (Value.obj card.metadata).FloatsStable

structure Restorable (other : Char → DigitKind) (repr : Value → String) (db : Database)
    (card : DecisionCard) : Prop where
  id : toUuidStr card.decisionId = some card.decisionId
  actions : card.actions = ["ack", "reject"]
  /-- The card is stored, or nothing is written and a row that reads like the card is there. -/
  stored : (∃ id project, putKeys other card = some (id, project) ∧ Stored repr db card id project) ∨
    (∀ id project, putKeys other card = some (id, project) → db.accepts card id project = false) ∧
      ∃ c, hydrate repr db card.decisionId = some c ∧ SameCard c card

/-- The row of a card that was written, over the one that was there. -/
def writtenRow (db : Database) (card : DecisionCard) (id : UuidText) (project : Option Nat) :
    DecisionRow :=
  match db.row id with
  | some r => Database.update r (cardRow card id project)
  | none => cardRow card id project

section Written

variable {repr : Value → String} {db : Database} {card : DecisionCard} {id : UuidText}
  {project : Option Nat}

theorem writtenRow_id : (writtenRow db card id project).id = id := by
  rw [writtenRow]
  split
  · rename_i r hr
    have hid : r.id = id := by simpa using List.find?_some hr
    exact hid
  · rfl

theorem writtenRow_column :
    (writtenRow db card id project).projectId = projectColumn db id project := by
  rw [writtenRow, projectColumn]
  split <;> rfl

variable (db card id project) in
theorem writtenRow_texts : (writtenRow db card id project).title = card.title ∧
    (writtenRow db card id project).body = card.body ∧
    (writtenRow db card id project).status = card.status ∧
    (writtenRow db card id project).metadata = (Value.obj card.metadata).jsonb ∧
    (writtenRow db card id project).citations =
      (Value.arr (card.citations.map Value.obj)).jsonb := by
  rw [writtenRow]
  split <;> exact ⟨rfl, rfl, rfl, rfl, rfl⟩

theorem kindText_class (card : DecisionCard) : kindText card.decisionClass = card.decisionClass := by
  rw [kindText, if_neg]
  intro hempty
  have hlength := card.classLength.1
  rw [hempty] at hlength
  exact absurd hlength (by decide)

theorem writtenRow_kind : kindText (writtenRow db card id project).kind = card.decisionClass ↔
    ∀ r ∈ db.row id, kindText r.kind = card.decisionClass := by
  rw [writtenRow]
  cases db.row id with
  | some r => simp [Database.update]
  | none => simp [cardRow, kindText_class]

theorem obj_members_jsonb (ms : Members) :
    Value.obj (members (Value.obj ms).jsonb) = (Value.obj ms).jsonb := by
  obtain ⟨ms', hms, -⟩ := jsonb_obj ms
  rw [hms]
  rfl

/-- A card that was written comes back exactly when the row keeps its fields. -/
theorem written_same_iff (haccepted : db.accepts card id project = true) :
    (∃ c, rowToCard repr (writtenRow db card id project) = some c ∧ SameCard c card) ↔
      id.val = card.decisionId ∧ card.actions = ["ack", "reject"] ∧
        Stored repr db card id project := by
  obtain ⟨htitle, hbody, hstatus, hmetadata, hcitations⟩ :=
    writtenRow_texts db card id project
  constructor
  · rintro ⟨c, hc, hsame⟩
    obtain ⟨hid, hclass, hproject, -, -, hactions, hmeta, -⟩ := rowToCard_some hc
    rw [writtenRow_id] at hid
    rw [writtenRow_column, hmetadata] at hproject
    refine ⟨hid.symm.trans hsame.id, hsame.actions.symm.trans hactions, haccepted, ?_, ?_, ?_⟩
    · exact writtenRow_kind.mp (hclass.symm.trans hsame.kind)
    · exact hproject.symm.trans hsame.project
    · have hsort := hsame.metadata
      rw [hmeta, hmetadata, obj_members_jsonb] at hsort
      exact (jsonb_sortKeys_iff card.metadataDict).mp hsort
  · rintro ⟨hid, hactions, hstored⟩
    have hkind : kindText (writtenRow db card id project).kind = card.decisionClass :=
      writtenRow_kind.mpr hstored.kind
    obtain ⟨c, hc⟩ : ∃ c, rowToCard repr (writtenRow db card id project) = some c :=
      rowToCard_isSome card hcitations hkind htitle hbody
    obtain ⟨hcid, hclass, hproject, hctitle, hcbody, hcactions, hmeta, hcstatus⟩ :=
      rowToCard_some hc
    refine ⟨c, hc, ?_⟩
    exact
      { id := by rw [hcid, writtenRow_id, hid]
        project := by rw [hproject, writtenRow_column, hmetadata, hstored.project]
        kind := hclass.trans hkind
        title := hctitle.trans htitle
        body := hcbody.trans hbody
        actions := hcactions.trans hactions.symm
        metadata := by
          rw [hmeta, hmetadata, obj_members_jsonb]
          exact (jsonb_sortKeys_iff card.metadataDict).mpr hstored.floats
        status := hcstatus.trans hstatus }

end Written

theorem putKeys_some {other : Char → DigitKind} {card : DecisionCard} {id : UuidText}
    {project : Option Nat} (h : putKeys other card = some (id, project)) :
    toUuid card.decisionId = some id := by
  rw [putKeys] at h
  split at h
  · rename_i id' project' hid _
    obtain ⟨rfl, -⟩ := Prod.mk.inj (Option.some.inj h)
    exact hid
  · cases h

/-- A card is the same after a write and a read of its row exactly when it is restorable. -/
theorem restored_iff (other : Char → DigitKind) (repr : Value → String) (db : Database)
    (card : DecisionCard) :
    (∃ c, hydrate repr (persistPut other db card) card.decisionId = some c ∧ SameCard c card) ↔
      Restorable other repr db card := by
  by_cases hput : ∃ id project, putKeys other card = some (id, project) ∧
      db.accepts card id project = true
  · obtain ⟨id, project, hkeys, haccepted⟩ := hput
    have hid := putKeys_some hkeys
    have hreachable : db.reachable = true := by
      simp only [Database.accepts, Bool.and_eq_true] at haccepted
      exact haccepted.1.1.1.1.1.1.1
    have hread : hydrate repr (persistPut other db card) card.decisionId =
        rowToCard repr (writtenRow db card id project) := by
      have hrow : (db.upsert (cardRow card id project)).row id =
          some (writtenRow db card id project) := row_upsert db (cardRow card id project)
      have hreachable' : (db.upsert (cardRow card id project)).reachable = true := hreachable
      simp only [persistPut, hkeys, haccepted, if_true, hydrate, hid, hreachable', hrow,
        Option.bind_some]
    rw [hread, written_same_iff haccepted]
    constructor
    · rintro ⟨hcanonical, hactions, hstored⟩
      exact ⟨by rw [toUuid_some hid, hcanonical], hactions,
        Or.inl ⟨id, project, hkeys, hstored⟩⟩
    · rintro ⟨hcanonical, hactions, ⟨id', project', hkeys', hstored⟩ | ⟨hrefused, -⟩⟩
      · rw [hkeys] at hkeys'
        obtain ⟨rfl, rfl⟩ := Prod.mk.inj (Option.some.inj hkeys')
        rw [toUuid_some hid] at hcanonical
        exact ⟨Option.some.inj hcanonical, hactions, hstored⟩
      · rw [hrefused id project hkeys] at haccepted
        cases haccepted
  · have hrefused : ∀ id project, putKeys other card = some (id, project) →
        db.accepts card id project = false := by
      intro id project hkeys
      exact Bool.eq_false_iff.mpr fun haccepted => hput ⟨id, project, hkeys, haccepted⟩
    have hsame : persistPut other db card = db := by
      rw [persistPut]
      split
      · rfl
      · rename_i id project hkeys
        rw [hrefused id project hkeys]
        rfl
    rw [hsame]
    constructor
    · rintro ⟨c, hc, hcard⟩
      obtain ⟨hcanonical, hactions⟩ := sameCard_hydrate hc hcard
      exact ⟨hcanonical, hactions, Or.inr ⟨hrefused, c, hc, hcard⟩⟩
    · rintro ⟨-, -, ⟨id, project, hkeys, hstored⟩ | ⟨-, hthere⟩⟩
      · exact absurd ⟨id, project, hkeys, hstored.accepted⟩ hput
      · exact hthere

def emptyTable : Database := ⟨[], [], true, List.nodup_nil⟩

/-- The instructions for a deployment can only be acknowledged. -/
def ackOnly : DecisionCard where
  decisionId := "7b0f2c1e-52a8-4c0c-9a44-0d5b7a1f6e21"
  decisionClass := "approval"
  title := "Deploy instructions"
  actions := ["ack"]
  createdAt := 0
  metadataDict := distinct_empty

theorem ackOnly_widened :
    (hydrate (fun _ => "") (persistPut (fun _ => .none) emptyTable ackOnly)
      ackOnly.decisionId).map DecisionCard.actions = some ["ack", "reject"] ∧
    ¬ ∀ card : DecisionCard, ∃ c,
      hydrate (fun _ => "") (persistPut (fun _ => .none) emptyTable card) card.decisionId =
        some c ∧ SameCard c card := by
  refine ⟨by decide +kernel, ?_⟩
  intro h
  obtain ⟨c, hc, hsame⟩ := h ackOnly
  exact absurd (sameCard_hydrate hc hsame).2 (by decide)

end SpineFormal.Hub.Cards
