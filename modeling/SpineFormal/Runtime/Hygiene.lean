import SpineFormal.Base.FileTree
import SpineFormal.Base.IsoFormat
import SpineFormal.Base.Run
import SpineFormal.Base.TextCodec

/-!
# Workspaces

`shared/runtime/hygiene.py`: a workspace is a directory of its own below `work`; closing
it packs the directory into `archive/<date>/<run id>.tar.*` and removes it. A tar file is
kept as the list of its members, compression left out. Times of files are left out too.
-/

namespace SpineFormal.Runtime.Hygiene

set_option autoImplicit false

/-! ## The file system -/

inductive Content where
  | data (bytes : Bytes)
  | tar (members : List (Path × Content))

def Content.data? : Content → Option Bytes
  | .data bytes => some bytes
  | .tar _ => none

abbrev Tree := FileTree Content

/-- `_work_root()`. -/
def workRoot (home : Path) : Path := home ++ ["work"]

/-- `_archive_root()`. -/
def archiveRoot (home : Path) : Path := home ++ ["archive"]

/-- `_RUN_ID_PATTERN`. -/
def ValidRunId (runId : String) : Prop :=
  1 ≤ runId.length ∧ runId.length ≤ 64 ∧
    ∀ c ∈ runId.toList, c.isAlphanum = true ∨ c = '_' ∨ c = '-'

instance (runId : String) : Decidable (ValidRunId runId) :=
  @instDecidableAnd _ _ inferInstance
    (@instDecidableAnd _ _ inferInstance (List.decidableBAll _ _))

/-- `Path(relpath).parts`. -/
def parts (relpath : String) : List String :=
  ((relpath.toList.splitOn '/').map String.ofList).filter fun c => c ≠ "" ∧ c ≠ "."

/-- `_safe_join`, as what follows the root. Without `..` nothing escapes it. -/
def safeJoin (relpath : String) : Option (List String) :=
  if relpath = "" ∨ relpath.toList.head? = some '/' ∨ relpath.toList.head? = some '\\' ∨
      ".." ∈ parts relpath ∨ '\x00' ∈ relpath.toList then none
  else some (parts relpath)

/-! ## State -/

/-- A `Workspace` object. -/
structure Workspace where
  runId : String
  closed : Bool

def Workspace.root (home : Path) (runId : String) : Path := workRoot home ++ [runId]

/-- A file that was written to a workspace. -/
structure Written where
  runId : String
  parts : List String
  content : Bytes
  deriving DecidableEq

/-- The tree and the workspace objects. What was written and neither promoted nor written
over is listed as `current` until an archive of its workspace is made, from then on as
`stored`. -/
structure State where
  tree : Tree
  spaces : List Workspace
  current : List Written
  stored : List Written

def State.init (tree : Tree) : State := ⟨tree, [], [], []⟩

inductive Op where
  /-- `Workspace(run_id)`; the stamp is the text of the clock. -/
  | «open» (runId : String) (stamp : Bytes)
  | write (space : Nat) (relpath : String) (content : Bytes)
  | promote (space : Nat) (relpath : String) (target : Path)
  /-- The clock gives the date; `zst` says whether zstandard can be imported. -/
  | close (space : Nat) (archive : Bool) (now : Calendar) (zst : Bool)

/-! ## Operations -/

def openSpace (home : Path) (runId : String) (stamp : Bytes) (s : State) : State :=
  if ¬ ValidRunId runId then s
  else
    match s.tree.mkdirs (Workspace.root home runId) with
    | none => s
    | some t =>
      match t.writeFile (Workspace.root home runId ++ [".created"]) (.data stamp) with
      | none => { s with tree := t }
      | some t' => { s with tree := t', spaces := s.spaces ++ [⟨runId, false⟩] }

/-- A file of the workspace that is at or below a path. -/
def Written.Under (runId : String) (rel : List String) (f : Written) : Prop :=
  f.runId = runId ∧ rel <+: f.parts

instance (runId : String) (rel : List String) (f : Written) : Decidable (f.Under runId rel) :=
  inferInstanceAs (Decidable (_ ∧ _))

def writeTo (home : Path) (runId : String) (rel : List String) (content : Bytes) (s : State) :
    State :=
  match s.tree.mkdirs (Workspace.root home runId ++ rel).dropLast with
  | none => s
  | some t =>
    match t.writeFile (Workspace.root home runId ++ rel) (.data content) with
    | none => { s with tree := t }
    | some t' =>
      { s with
        tree := t'
        current := ⟨runId, rel, content⟩ ::
          s.current.filter fun f => ¬ (f.runId = runId ∧ f.parts = rel) }

/-- Where `shutil.move` puts the source: in a directory, under its own name. -/
def destination (t : Tree) (src target : Path) : Path :=
  if t.isDir target then target ++ src.drop (src.length - 1) else target

/-- `shutil.move`, with the copy that `promote` falls back to: a file replaces a file, a
directory only moves to where nothing is. -/
def move (t : Tree) (src target : Path) : Option Tree :=
  match t.get? src with
  | none => none
  | some (.file c) =>
    if t.isDir (destination t src target) then none
    else if destination t src target = src then if t.isDir target then none else some t
    else some ((t.remove src).put (destination t src target) (.file c))
  | some .dir =>
    if target = src then some t
    else if (t.get? (destination t src target)).isSome ∨ src <+: destination t src target then none
    else some (t.moveTree src (destination t src target))

def promoteFrom (home : Path) (runId : String) (rel : List String) (target : Path) (s : State) :
    State :=
  if (s.tree.get? (Workspace.root home runId ++ rel)).isNone then s
  else
    match s.tree.mkdirs target.dropLast with
    | none => s
    | some t =>
      match move t (Workspace.root home runId ++ rel) target with
      | none => { s with tree := t }
      | some t' =>
        { s with tree := t', current := s.current.filter fun f => ¬ f.Under runId rel }

/-! ## Closing -/

def archiveDir (home : Path) (now : Calendar) : Path :=
  archiveRoot home ++ [String.ofList now.dateText]

def archivePath (home : Path) (now : Calendar) (zst : Bool) (runId : String) : Path :=
  archiveDir home now ++ [runId ++ if zst then ".tar.zst" else ".tar.gz"]

/-- What `tar.add(root, arcname=run_id)` packs. -/
def tarOf (t : Tree) (home : Path) (runId : String) : Content :=
  .tar ((t.filesUnder (Workspace.root home runId)).map fun m => (runId :: m.1, m.2))

/-- `_archive`: the tree, and whether it ended without an error. The zstandard branch packs
first and writes then; the other opens its file for writing before it looks for the root. -/
def archive (t : Tree) (home : Path) (now : Calendar) (zst : Bool) (runId : String) :
    Tree × Bool :=
  match t.mkdirs (archiveDir home now) with
  | none => (t, false)
  | some t =>
    if zst ∧ (t.get? (Workspace.root home runId)).isNone then (t, false)
    else if t.isDir (archivePath home now zst runId) then (t, false)
    else if (t.get? (Workspace.root home runId)).isNone then
      (t.put (archivePath home now zst runId) (.file (.tar [])), false)
    else (t.put (archivePath home now zst runId) (.file (tarOf t home runId)), true)

/-- `shutil.rmtree(root, ignore_errors=True)`. -/
def rmtree (t : Tree) (p : Path) : Tree := if t.isDir p then t.remove p else t

def closeSpace (home : Path) (runId : String) (withArchive : Bool) (now : Calendar) (zst : Bool)
    (s : State) : State :=
  if ¬ withArchive then { s with tree := rmtree s.tree (Workspace.root home runId) }
  else
    match archive s.tree home now zst runId with
    | (t, false) => { s with tree := t }
    | (t, true) =>
      { s with
        tree := rmtree t (Workspace.root home runId)
        current := s.current.filter fun f => f.runId ≠ runId
        stored := s.stored ++ s.current.filter fun f => f.runId = runId }

/-- An operation on the workspace object with a number; a closed one takes none. -/
def onSpace (i : Nat) (op : String → State → State) (s : State) : State :=
  match s.spaces[i]? with
  | some ⟨runId, false⟩ => op runId s
  | _ => s

def withJoined (relpath : String) (op : List String → State → State) (s : State) : State :=
  match safeJoin relpath with
  | some rel => op rel s
  | none => s

def step (home : Path) (s : State) : Op → State
  | .open runId stamp => openSpace home runId stamp s
  | .write i relpath content =>
    onSpace i (fun runId => withJoined relpath fun rel => writeTo home runId rel content) s
  | .promote i relpath target =>
    onSpace i (fun runId => withJoined relpath fun rel => promoteFrom home runId rel target) s
  | .close i withArchive now zst =>
    onSpace i (fun runId s => closeSpace home runId withArchive now zst
      { s with spaces := s.spaces.set i ⟨runId, true⟩ }) s

end SpineFormal.Runtime.Hygiene
