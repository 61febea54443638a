import SpineFormal.Base.TextCodec
import SpineFormal.Json.Loads
import SpineFormal.Kg.DiffEngine

/-!
# Loading the live rows of a file

The rows come as text that psql writes: a record a line, the fields of a record
with a bar between them and NULL as an empty field. Line breaks and bars inside
a field are not told from those between records and fields. The properties are
the last field, so a bar in them cuts only their own text.
-/

namespace SpineFormal.Kg

open Json Numerals
set_option autoImplicit false

/-! ## The text of a JSONB column -/

def escapeJson (c : Char) : List Char :=
  match c with
  | '"' => ['\\', '"']
  | '\\' => ['\\', '\\']
  | '\x08' => ['\\', 'b']
  | '\x0c' => ['\\', 'f']
  | '\n' => ['\\', 'n']
  | '\r' => ['\\', 'r']
  | '\t' => ['\\', 't']
  | c => if c.toNat < 32 then '\\' :: 'u' :: fixed 16 4 c.toNat else [c]

def quoteJson (s : String) : List Char := '"' :: (s.toList.flatMap escapeJson ++ ['"'])

/-- A `numeric` is written without an exponent. -/
def numericText : PyFloat → List Char
  | .finite neg c e _ =>
    let ds := Nat.toDigits 10 c
    let point := ds.length + e
    signText neg ++
      if point ≤ 0 then '0' :: '.' :: (List.replicate point.natAbs '0' ++ ds)
      else if ds.length ≤ point.natAbs then
        ds ++ (List.replicate (point.natAbs - ds.length) '0' ++ ['.', '0'])
      else ds.take point.natAbs ++ '.' :: ds.drop point.natAbs
  | x => x.floatstr

mutual
def jsonbText : Value → List Char
  | .null => "null".toList
  | .bool b => if b then "true".toList else "false".toList
  | .int n => decimal n
  | .float x => numericText x
  | .str s => quoteJson s
  | .arr xs => '[' :: (", ".toList.intercalate (jsonbTextElems xs) ++ [']'])
  | .obj ms => '{' :: (", ".toList.intercalate (jsonbTextMembers ms) ++ ['}'])
def jsonbTextElems : List Value → List (List Char)
  | [] => []
  | v :: vs => jsonbText v :: jsonbTextElems vs
def jsonbTextMembers : Members → List (List Char)
  | [] => []
  | (k, v) :: ms => (quoteJson k ++ ':' :: ' ' :: jsonbText v) :: jsonbTextMembers ms
end

/-! ## Records -/

def psqlText (records : List (List (List Char))) : List Char :=
  records.flatMap fun fields => ['|'].intercalate fields ++ ['\n']

/-- The lines that are not empty, each cut at its bars. -/
def psqlRecords (out : List Char) : List (List (List Char)) :=
  ((splitlines out).filter (· ≠ [])).map (List.splitOn '|')

def NodeRow.record (r : NodeRow) : List (List Char) :=
  [r.nodeId.toList, r.type.toList, (r.subtype.getD "").toList, r.repo.toList,
    r.commitSha.toList, (r.path.getD "").toList, (r.name.getD "").toList,
    jsonbText r.properties]

def edgeRecord (e : String × String × EdgeRow) : List (List Char) :=
  [e.1.toList, e.2.1.toList, e.2.2.type.toList, e.2.2.commitSha.toList,
    jsonbText e.2.2.properties]

def loadProps (text : List Char) : LoadedProps :=
  match loadsText text with
  | some v => .doc v
  | none => .raw text

def nodeOfFields : List (List Char) → Option OldNode
  | nodeId :: type :: subtype :: repo :: _ :: path :: name :: properties :: _ =>
    some ⟨.ofList nodeId, .ofList type, orNone (.ofList subtype), .ofList repo,
      orNone (.ofList path), orNone (.ofList name), loadProps properties⟩
  | _ => none

def edgeOfFields : List (List Char) → Option OldEdge
  | source :: target :: type :: _ :: properties :: _ =>
    some ⟨.ofList source, .ofList target, .ofList type, loadProps properties⟩
  | _ => none

/-- `_load_existing_for_path`. -/
def Graph.loadExisting (g : Graph) (repo path : String) : List OldNode × List OldEdge :=
  let out := psqlText ((g.liveNodes repo path).map NodeRow.record)
  let nodes := (psqlRecords out).filterMap nodeOfFields
  if nodes.isEmpty then ([], [])
  else
    let edges := g.edgesFrom (nodes.map OldNode.nodeId)
    (nodes, (psqlRecords (psqlText (edges.map edgeRecord))).filterMap edgeOfFields)

/-! ## Rows that come back -/

def NodeRow.Clean (r : NodeRow) : Prop :=
  (∀ field ∈ r.record.take 7, ∀ c ∈ field, c ≠ '|' ∧ lineBreak c = false) ∧
    ∀ c ∈ jsonbText r.properties, lineBreak c = false

instance : DecidablePred NodeRow.Clean := fun r =>
  decidable_of_iff
    (((r.record.take 7).all fun field => field.all fun c => decide (c ≠ '|') && !lineBreak c) &&
      (jsonbText r.properties).all fun c => !lineBreak c)
    (by simp [NodeRow.Clean])

/-- What a clean row comes back as: the text of its properties ends at the first bar. -/
def NodeRow.reload (r : NodeRow) : OldNode :=
  { r.load with
    properties := loadProps (((jsonbText r.properties).splitOn '|').headD []) }

theorem NodeRow.record_eq (r : NodeRow) : r.record = r.record.take 7 ++ [jsonbText r.properties] :=
  rfl

theorem NodeRow.Clean.splitOn_record {r : NodeRow} (h : r.Clean) :
    (['|'].intercalate r.record).splitOn '|' =
      r.record.take 7 ++ (jsonbText r.properties).splitOn '|' := by
  rw [r.record_eq, splitOn_intercalate_concat fun field hf hbar => (h.1 field hf _ hbar).1 rfl]
  rfl

theorem NodeRow.Clean.lineBreak_record {r : NodeRow} (h : r.Clean) :
    ∀ c ∈ ['|'].intercalate r.record, lineBreak c = false := by
  intro c hc
  rcases mem_intercalate hc with rfl | ⟨field, hf, hc⟩
  · decide
  · rw [r.record_eq] at hf
    rcases List.mem_append.mp hf with hf | hf
    · exact (h.1 field hf c hc).2
    · exact h.2 c (List.mem_singleton.mp hf ▸ hc)

theorem psqlRecords_clean {rows : List NodeRow} (h : ∀ r ∈ rows, r.Clean) :
    psqlRecords (psqlText (rows.map NodeRow.record)) =
      rows.map fun r => r.record.take 7 ++ (jsonbText r.properties).splitOn '|' := by
  induction rows with
  | nil => rfl
  | cons r rows ih =>
    have hr : r.Clean := h r List.mem_cons_self
    have hne : ['|'].intercalate r.record ≠ [] := by
      rw [NodeRow.record, List.intercalate_cons_cons]
      simp
    have hline : psqlText ((r :: rows).map NodeRow.record) =
        ['|'].intercalate r.record ++ '\n' :: psqlText (rows.map NodeRow.record) := by
      simp [psqlText]
    rw [psqlRecords, hline, splitlines_line hr.lineBreak_record, List.filter_cons_of_pos (by simpa),
      List.map_cons, hr.splitOn_record, List.map_cons]
    congr 1
    exact ih fun r' hr' => h r' (List.mem_cons_of_mem r hr')

theorem orNone_getD (field : Option String) : orNone (field.getD "") = field.bind orNone := by
  cases field with
  | none => rfl
  | some s => rfl

theorem nodeOfFields_record (r : NodeRow) :
    nodeOfFields (r.record.take 7 ++ (jsonbText r.properties).splitOn '|') = some r.reload := by
  obtain ⟨head, rest, hsplit⟩ :=
    List.exists_cons_of_ne_nil (List.splitOn_ne_nil '|' (jsonbText r.properties))
  rw [hsplit, NodeRow.reload, hsplit]
  simp only [NodeRow.record, List.take_succ_cons, List.take_zero, List.cons_append,
    List.nil_append, nodeOfFields, String.ofList_toList, orNone_getD, List.headD_cons]
  rfl

theorem loadExisting_clean {g : Graph} {repo path : String}
    (h : ∀ r ∈ g.liveNodes repo path, r.Clean) :
    (g.loadExisting repo path).1 = (g.liveNodes repo path).map NodeRow.reload := by
  have hnodes : (psqlRecords (psqlText ((g.liveNodes repo path).map NodeRow.record))).filterMap
      nodeOfFields = (g.liveNodes repo path).map NodeRow.reload := by
    rw [psqlRecords_clean h, List.filterMap_map, ← List.filterMap_eq_map]
    apply List.filterMap_congr
    intro r _
    exact nodeOfFields_record r
  rw [Graph.loadExisting]
  split
  · rename_i hempty
    exact (List.isEmpty_iff.mp hempty).symm.trans hnodes
  · exact hnodes

end SpineFormal.Kg
