import SpineFormal.Kg.GitDiff

/-!
# Indexing a history

A cold start walks the working tree of a commit and inserts the nodes of every
file in batches. An incremental run goes through the changes since the commit
that was indexed last: deleted files are closed, added ones inserted, all others
superseded at the path the change ends with.
-/

namespace SpineFormal.Kg

set_option autoImplicit false

/-! ## Cold start -/

/-- The graph, and the commit in `kg_index_state`. -/
structure Index where
  graph : Graph
  lastCommit : Option String

def Index.empty : Index := ⟨⟨⟨[], 1, List.nodup_nil⟩, []⟩, none⟩

def Graph.flushInserts (g : Graph) (nodes : List NodeDict) (edges : List EdgeDict) : Graph :=
  ⟨g.nodes.insertNodes nodes, insertEdges (g.nodes.insertNodes nodes) g.edges edges⟩

/-- The nodes and edges that wait for their batch. -/
structure Pending where
  nodes : List NodeDict
  edges : List EdgeDict
  graph : Graph

def batchSize : Nat := 1000

def Pending.add (st : Pending) (parsed : List NodeDict × List EdgeDict) : Pending :=
  let nodes := st.nodes ++ parsed.1
  let edges := st.edges ++ parsed.2
  if batchSize ≤ nodes.length ∨ batchSize ≤ edges.length then
    ⟨[], [], st.graph.flushInserts nodes edges⟩
  else ⟨nodes, edges, st.graph⟩

def Pending.finish (st : Pending) : Graph :=
  if st.nodes.isEmpty && st.edges.isEmpty then st.graph
  else st.graph.flushInserts st.nodes st.edges

def Parser.coldStart (P : Parser) (repo : String) (h : History) (head : String) (ix : Index) :
    Index :=
  let st := (h.tree head).walkRepo.foldl (fun (st : Pending) f =>
    st.add (P.parseFile repo head f.2.2 f.1 (some f.2.1))) ⟨[], [], ix.graph⟩
  ⟨st.finish, some head⟩

/-! ## Incremental runs -/

def Parser.diffOneFile (P : Parser) (repo head : String) (t : Tree) (g : Graph)
    (cfg : ExtractorConfig) (status : List Char) (rel : String) : FileDiff :=
  let old := g.loadExisting repo rel
  let parsed := P.parseFile repo head cfg rel (t.read rel)
  if status = ['D'] then closeFileIndex old.1 old.2
  else if status = ['A'] then replaceFileIndex parsed.1 parsed.2
  else diffFileIndex old.1 old.2 parsed.1 parsed.2

def Parser.indexLine (P : Parser) (repo head : String) (t : Tree) (now : Int) (g : Graph)
    (line : List Char × String) : Graph :=
  match pickExtractor line.2 with
  | none => g
  | some cfg => applyDiff now g (P.diffOneFile repo head t g cfg line.1 line.2)

/-- Each file is a transaction of its own; `now i` is the time of the `i`-th. -/
def Parser.indexLines (P : Parser) (repo head : String) (t : Tree) :
    (Nat → Int) → List (List Char × String) → Graph → Graph
  | _, [], g => g
  | now, line :: lines, g =>
    P.indexLines repo head t (fun i => now (i + 1)) lines (P.indexLine repo head t (now 0) g line)

def Parser.incrementalIndex (P : Parser) (repo : String) (h : History) (head : String)
    (now : Nat → Int) (ix : Index) : Index :=
  match ix.lastCommit with
  | none => ix
  | some last =>
    if last = head then ix
    else
      let lines := gitDiffNameStatus (nameStatus (h.changes last head))
      ⟨P.indexLines repo head (h.tree head) now lines ix.graph, some head⟩

end SpineFormal.Kg
