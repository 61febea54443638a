import SpineFormal.Base.KeyedTable
import SpineFormal.Json.Jsonb
import SpineFormal.Json.Text

/-!
# Superseding the rows of a file

The node and edge tables of the knowledge graph, the difference between the
live rows of a file and a new snapshot of it, and the transaction that applies
the difference: superseded rows are closed, new ones inserted. The external id
of a node is unique over all rows, closed ones included, and an insert that
runs into an existing id does nothing.
-/

namespace SpineFormal.Kg

open Json
set_option autoImplicit false

/-! ## The tables -/

/-- The properties a parser attaches: a `dict` of strings. -/
structure Props where
  entries : List (String × String)
  nodup : (entries.map Prod.fst).Nodup
  deriving DecidableEq

def Props.doc (p : Props) : Value := .obj (p.entries.map fun e => (e.1, .str e.2))

/-- A node as the parser runtime emits it. -/
structure NodeDict where
  nodeId : String
  type : String
  subtype : Option String
  repo : String
  commitSha : String
  path : String
  name : String
  properties : Props

structure EdgeDict where
  fromNodeId : String
  toNodeId : String
  type : String
  commitSha : String
  properties : Props

/-- A row of `kg_node`. -/
structure NodeRow where
  id : Nat
  nodeId : String
  type : String
  subtype : Option String
  repo : String
  commitSha : String
  path : Option String
  name : Option String
  properties : Value
  validTo : Option Int

structure EdgeRow where
  fromId : Nat
  toId : Nat
  type : String
  commitSha : String
  properties : Value
  validTo : Option Int

/-- `kg_node` with its UNIQUE constraint, and the sequence of its ids. -/
structure NodeTable where
  rows : List NodeRow
  nextId : Nat
  unique : (rows.map NodeRow.nodeId).Nodup

structure Graph where
  nodes : NodeTable
  edges : List EdgeRow

def NodeRow.live (r : NodeRow) : Bool := r.validTo.isNone

def NodeRow.inFile (repo path : String) (r : NodeRow) : Bool :=
  decide (r.repo = repo ∧ r.path = some path)

/-! ## The old snapshot -/

/-- The text of a JSONB column as `json.loads` finds it: a document, or text that is none. -/
inductive LoadedProps where
  | doc (v : Value)
  | raw (text : List Char)

/-- A node as it is loaded from the table: psql writes NULL as an empty field. -/
structure OldNode where
  nodeId : String
  type : String
  subtype : Option String
  repo : String
  path : Option String
  name : Option String
  properties : LoadedProps

structure OldEdge where
  fromNodeId : String
  toNodeId : String
  type : String
  properties : LoadedProps

/-- `f or None` -/
def orNone (field : String) : Option String := if field = "" then none else some field

def NodeRow.load (r : NodeRow) : OldNode where
  nodeId := r.nodeId
  type := r.type
  subtype := r.subtype.bind orNone
  repo := r.repo
  path := r.path.bind orNone
  name := r.name.bind orNone
  properties := .doc r.properties

def Graph.liveNodes (g : Graph) (repo path : String) : List NodeRow :=
  g.nodes.rows.filter fun r => r.live && r.inFile repo path

/-- The live edges that leave the given nodes, each with the external ids of its ends. -/
def Graph.edgesFrom (g : Graph) (nodeIds : List String) : List (String × String × EdgeRow) :=
  g.edges.filterMap fun e =>
    if e.validTo.isNone then
      match g.nodes.rows.find? (·.id = e.fromId), g.nodes.rows.find? (·.id = e.toId) with
      | some source, some target =>
        if source.nodeId ∈ nodeIds then some (source.nodeId, target.nodeId, e) else none
      | _, _ => none
    else none

def Graph.liveEdges (g : Graph) (nodeIds : List String) : List OldEdge :=
  (g.edgesFrom nodeIds).map fun e => ⟨e.1, e.2.1, e.2.2.type, .doc e.2.2.properties⟩

/-! ## The difference -/

structure FileDiff where
  insertNodes : List NodeDict
  insertEdges : List EdgeDict
  closeNodeIds : List String
  closeEdgeKeys : List (String × String × String)

def normalizeProps : LoadedProps → List Char
  | .doc v => dumps v
  | .raw text => text

def propsChanged (a b : LoadedProps) : Bool := normalizeProps a ≠ normalizeProps b

def nodeChanged (old : OldNode) (new : NodeDict) : Bool :=
  decide (old.type ≠ new.type ∨ old.subtype ≠ new.subtype ∨ old.name ≠ some new.name ∨
    old.path ≠ some new.path ∨ old.repo ≠ new.repo) ||
    propsChanged old.properties (.doc new.properties.doc)

/-- What is to be closed and inserted, for rows with any key. -/
def diffBy {κ ω ν : Type} [DecidableEq κ] (oldKey : ω → κ) (newKey : ν → κ)
    (changed : ω → ν → Bool) (old : List ω) (new : List ν) : List κ × List ν :=
  let oldByKey := keyed oldKey old
  let newByKey := keyed newKey new
  let differs := fun n =>
    match oldByKey.find? (oldKey · = newKey n) with
    | none => false
    | some o => changed o n
  let added := fun n => newKey n ∉ oldByKey.map oldKey
  ((newByKey.filter differs).map newKey ++
      (oldByKey.filter fun o => oldKey o ∉ newByKey.map newKey).map oldKey,
    newByKey.filter fun n => added n || differs n)

def diffNodes (old : List OldNode) (new : List NodeDict) : List String × List NodeDict :=
  diffBy OldNode.nodeId NodeDict.nodeId nodeChanged old new

def oldEdgeKey (e : OldEdge) : String × String × String := (e.fromNodeId, e.toNodeId, e.type)

def edgeKey (e : EdgeDict) : String × String × String := (e.fromNodeId, e.toNodeId, e.type)

def diffEdges (old : List OldEdge) (new : List EdgeDict) :
    List (String × String × String) × List EdgeDict :=
  diffBy oldEdgeKey edgeKey (fun o n => propsChanged o.properties (.doc n.properties.doc)) old new

def diffFileIndex (oldNodes : List OldNode) (oldEdges : List OldEdge) (newNodes : List NodeDict)
    (newEdges : List EdgeDict) : FileDiff where
  insertNodes := (diffNodes oldNodes newNodes).2
  insertEdges := (diffEdges oldEdges newEdges).2
  closeNodeIds := (diffNodes oldNodes newNodes).1
  closeEdgeKeys := (diffEdges oldEdges newEdges).1

def replaceFileIndex (newNodes : List NodeDict) (newEdges : List EdgeDict) : FileDiff :=
  ⟨newNodes, newEdges, [], []⟩

def closeFileIndex (oldNodes : List OldNode) (oldEdges : List OldEdge) : FileDiff :=
  ⟨[], [], oldNodes.map OldNode.nodeId, oldEdges.map oldEdgeKey⟩

/-! ## The transaction -/

def NodeRow.close (now : Int) (nodeIds : List String) (r : NodeRow) : NodeRow :=
  if r.nodeId ∈ nodeIds ∧ r.validTo = none then { r with validTo := some now } else r

@[simp] theorem NodeRow.close_nodeId (now : Int) (nodeIds : List String) (r : NodeRow) :
    (r.close now nodeIds).nodeId = r.nodeId := by
  unfold close
  split <;> rfl

def NodeTable.closeNodes (now : Int) (t : NodeTable) (nodeIds : List String) : NodeTable where
  rows := t.rows.map (NodeRow.close now nodeIds)
  nextId := t.nextId
  unique := by
    have hkeys : (t.rows.map (NodeRow.close now nodeIds)).map NodeRow.nodeId =
        t.rows.map NodeRow.nodeId := by simp [List.map_map, Function.comp_def]
    exact hkeys ▸ t.unique

def NodeDict.row (id : Nat) (n : NodeDict) : NodeRow :=
  ⟨id, n.nodeId, n.type, n.subtype, n.repo, n.commitSha, some n.path, some n.name,
    n.properties.doc.jsonb, none⟩

/-- `INSERT ... ON CONFLICT (node_id) DO NOTHING`; the sequence moves on all the same. -/
def NodeTable.insert (t : NodeTable) (n : NodeDict) : NodeTable where
  rows := insertNew NodeRow.nodeId t.rows (n.row t.nextId)
  nextId := t.nextId + 1
  unique := nodup_keys_insertNew t.unique _

def NodeTable.insertNodes (t : NodeTable) (ns : List NodeDict) : NodeTable :=
  ns.foldl NodeTable.insert t

/-- The row an edge statement means: ids are unique, so the newest row is the only one. -/
def NodeTable.idOf (t : NodeTable) (nodeId : String) : Option Nat :=
  (t.rows.find? (·.nodeId = nodeId)).map NodeRow.id

def NodeTable.liveIdOf (t : NodeTable) (nodeId : String) : Option Nat :=
  (t.rows.find? fun r => decide (r.nodeId = nodeId) && r.live).map NodeRow.id

def closeEdge (now : Int) (t : NodeTable) (edges : List EdgeRow) (k : String × String × String) :
    List EdgeRow :=
  edges.map fun e =>
    if e.validTo = none ∧ e.type = k.2.2 ∧ t.idOf k.1 = some e.fromId ∧
        t.idOf k.2.1 = some e.toId then
      { e with validTo := some now }
    else e

/-- Edges whose ends are not both live nodes are left out. -/
def insertEdges (t : NodeTable) (edges : List EdgeRow) (es : List EdgeDict) : List EdgeRow :=
  edges ++ es.filterMap fun e =>
    match t.liveIdOf e.fromNodeId, t.liveIdOf e.toNodeId with
    | some source, some target =>
      some ⟨source, target, e.type, e.commitSha, e.properties.doc.jsonb, none⟩
    | _, _ => none

/-- `_apply_diff`, once it commits. -/
def applyDiff (now : Int) (g : Graph) (diff : FileDiff) : Graph :=
  let closed := g.nodes.closeNodes now diff.closeNodeIds
  let edges := diff.closeEdgeKeys.foldl (closeEdge now closed) g.edges
  let nodes := closed.insertNodes diff.insertNodes
  ⟨nodes, insertEdges nodes edges diff.insertEdges⟩

/-! ## Rows -/

theorem mem_liveNodes {g : Graph} {repo path : String} {r : NodeRow} :
    r ∈ g.liveNodes repo path ↔
      r ∈ g.nodes.rows ∧ r.live = true ∧ r.inFile repo path = true := by
  rw [Graph.liveNodes, List.mem_filter, Bool.and_eq_true]

theorem Graph.row_unique (g : Graph) {r r' : NodeRow} (hr : r ∈ g.nodes.rows)
    (hr' : r' ∈ g.nodes.rows) (hid : r.nodeId = r'.nodeId) : r = r' :=
  List.inj_on_of_nodup_map g.nodes.unique hr hr' hid

theorem NodeRow.close_inFile {now : Int} {nodeIds : List String} (r : NodeRow)
    (repo path : String) : (r.close now nodeIds).inFile repo path = r.inFile repo path := by
  unfold close
  split <;> rfl

/-! ## What the difference holds -/

section
variable {κ ω ν : Type} [DecidableEq κ] {oldKey : ω → κ} {newKey : ν → κ} {changed : ω → ν → Bool}
  {old : List ω} {new : List ν}

theorem differs_iff {n : ν} :
    (match (keyed oldKey old).find? (oldKey · = newKey n) with
      | none => false
      | some o => changed o n) = true ↔
      ∃ o ∈ keyed oldKey old, oldKey o = newKey n ∧ changed o n = true := by
  constructor
  · intro h
    split at h
    · cases h
    · rename_i o ho
      obtain ⟨hmem, hkey⟩ := (find_key_iff (nodup_keys_keyed old)).mp ho
      exact ⟨o, hmem, hkey, h⟩
  · rintro ⟨o, hmem, hkey, h⟩
    rw [(find_key_iff (nodup_keys_keyed old)).mpr ⟨hmem, hkey⟩]
    exact h

theorem mem_diffBy_insert_iff {n : ν} :
    n ∈ (diffBy oldKey newKey changed old new).2 ↔ n ∈ keyed newKey new ∧
      (newKey n ∉ old.map oldKey ∨
        ∃ o ∈ keyed oldKey old, oldKey o = newKey n ∧ changed o n = true) := by
  rw [diffBy, List.mem_filter, Bool.or_eq_true, decide_eq_true_eq, differs_iff,
    ← keys_keyed old]

theorem mem_diffBy_close_iff {k : κ} :
    k ∈ (diffBy oldKey newKey changed old new).1 ↔
      (∃ n ∈ keyed newKey new, ∃ o ∈ keyed oldKey old,
        newKey n = k ∧ oldKey o = k ∧ changed o n = true) ∨
      (k ∈ old.map oldKey ∧ k ∉ new.map newKey) := by
  rw [diffBy, List.mem_append, ← keys_keyed old, ← keys_keyed new]
  apply or_congr
  · constructor
    · intro h
      obtain ⟨n, hn, rfl⟩ := List.mem_map.mp h
      obtain ⟨hn, h⟩ := List.mem_filter.mp hn
      obtain ⟨o, ho, hkey, h⟩ := differs_iff.mp h
      exact ⟨n, hn, o, ho, rfl, hkey, h⟩
    · rintro ⟨n, hn, o, ho, rfl, hkey, h⟩
      refine List.mem_map_of_mem (List.mem_filter.mpr ⟨hn, ?_⟩)
      exact differs_iff.mpr ⟨o, ho, hkey, h⟩
  · constructor
    · intro h
      obtain ⟨o, ho, rfl⟩ := List.mem_map.mp h
      obtain ⟨ho, h⟩ := List.mem_filter.mp ho
      exact ⟨List.mem_map_of_mem ho, of_decide_eq_true h⟩
    · rintro ⟨hold, hnew⟩
      obtain ⟨o, ho, rfl⟩ := List.mem_map.mp hold
      exact List.mem_map_of_mem (List.mem_filter.mpr ⟨ho, decide_eq_true hnew⟩)

end

/-! ## What the transaction does to the node rows -/

section
variable {now : Int} {g : Graph} {diff : FileDiff} {r : NodeRow}

theorem insertNodes_keeps {t : NodeTable} (ns : List NodeDict) (h : r ∈ t.rows) :
    r ∈ (t.insertNodes ns).rows := by
  induction ns generalizing t with
  | nil => exact h
  | cons n ns ih => exact ih (mem_insertNew_iff.mpr (.inl h))

theorem insertNodes_cases {t : NodeTable} {ns : List NodeDict} (h : r ∈ (t.insertNodes ns).rows) :
    r ∈ t.rows ∨ ∃ n ∈ ns, ∃ id, r = n.row id ∧ n.nodeId ∉ t.rows.map NodeRow.nodeId := by
  induction ns generalizing t with
  | nil => exact .inl h
  | cons n ns ih =>
    rcases ih h with hold | ⟨n', hn', id, rfl, hfresh⟩
    · rcases mem_insertNew_iff.mp hold with hold | ⟨rfl, hfresh⟩
      · exact .inl hold
      · exact .inr ⟨n, List.mem_cons_self, t.nextId, rfl, hfresh⟩
    · refine .inr ⟨n', List.mem_cons_of_mem n hn', id, rfl, fun hold => hfresh ?_⟩
      obtain ⟨r, hr, hkey⟩ := List.mem_map.mp hold
      exact List.mem_map.mpr ⟨r, mem_insertNew_iff.mpr (.inl hr), hkey⟩

/-- Every id that is inserted has a row afterwards, its own or an older one. -/
theorem insertNodes_present {t : NodeTable} {ns : List NodeDict} {n : NodeDict} (h : n ∈ ns) :
    ∃ r ∈ (t.insertNodes ns).rows, r.nodeId = n.nodeId := by
  induction ns generalizing t with
  | nil => cases h
  | cons m ns ih =>
    rcases List.mem_cons.mp h with rfl | h
    · have hin : ∃ r ∈ (t.insert n).rows, r.nodeId = n.nodeId := by
        by_cases hold : n.nodeId ∈ t.rows.map NodeRow.nodeId
        · obtain ⟨r, hr, hkey⟩ := List.mem_map.mp hold
          exact ⟨r, mem_insertNew_iff.mpr (.inl hr), hkey⟩
        · exact ⟨n.row t.nextId, mem_insertNew_iff.mpr (.inr ⟨rfl, hold⟩), rfl⟩
      obtain ⟨r, hr, hkey⟩ := hin
      exact ⟨r, insertNodes_keeps ns hr, hkey⟩
    · exact ih h

theorem applyDiff_closed (h : r ∈ g.nodes.rows) :
    r.close now diff.closeNodeIds ∈ (applyDiff now g diff).nodes.rows :=
  insertNodes_keeps diff.insertNodes (List.mem_map_of_mem h)

theorem applyDiff_cases (h : r ∈ (applyDiff now g diff).nodes.rows) :
    (∃ r₀ ∈ g.nodes.rows, r = r₀.close now diff.closeNodeIds) ∨
    ∃ n ∈ diff.insertNodes, ∃ id, r = n.row id ∧ n.nodeId ∉ g.nodes.rows.map NodeRow.nodeId := by
  rcases insertNodes_cases h with hold | ⟨n, hn, id, rfl, hfresh⟩
  · obtain ⟨r₀, hr₀, rfl⟩ := List.mem_map.mp hold
    exact .inl ⟨r₀, hr₀, rfl⟩
  · refine .inr ⟨n, hn, id, rfl, fun hold => hfresh ?_⟩
    obtain ⟨r₀, hr₀, hkey⟩ := List.mem_map.mp hold
    exact List.mem_map.mpr ⟨_, List.mem_map_of_mem hr₀, by simpa using hkey⟩

theorem applyDiff_present {n : NodeDict} (h : n ∈ diff.insertNodes) :
    ∃ r ∈ (applyDiff now g diff).nodes.rows, r.nodeId = n.nodeId :=
  insertNodes_present h

theorem NodeRow.close_of_notMem {nodeIds : List String} (h : r.nodeId ∉ nodeIds) :
    r.close now nodeIds = r := if_neg fun hclose => h hclose.1

theorem NodeRow.close_of_live {nodeIds : List String} (h : (r.close now nodeIds).live = true) :
    r.close now nodeIds = r ∧ r.nodeId ∉ nodeIds := by
  unfold close at h ⊢
  split at h
  · cases h
  · rename_i hopen
    refine ⟨if_neg hopen, fun hmem => hopen ⟨hmem, ?_⟩⟩
    exact Option.isNone_iff_eq_none.mp h

end

end SpineFormal.Kg
