import SpineFormal.Plan.BoundValues
import SpineFormal.Plan.Versioning

/-!
# The pipeline a project is locked to

`plan/pipeline/project_lock.py`: the snapshot that locks a project to a manifest, and the
question whether the locked manifest and the current one have drifted apart.
-/

namespace SpineFormal.Plan

open Py Psql
open Json (Value Members PlainText castJsonb unslash)
set_option autoImplicit false

/-- A row of `spine_lifecycle.project`: its two ids as texts, and the snapshot under
`metadata`. A UUID and a number have no characters to escape. -/
structure ProjectRow where
  uuid : String
  id : String
  status : String
  currentPhase : String
  pipelineVersion : Option String
  snapshot : Option Value
  uuid_plain : PlainText uuid
  id_plain : PlainText id

abbrev ProjectTable := List ProjectRow

/-- The row with a version and a snapshot. -/
def ProjectRow.locked (version : String) (document : Value) (row : ProjectRow) : ProjectRow :=
  { row with
    pipelineVersion := some version
    snapshot := some document }

/-- `project_uuid::text = :'pid' OR id::text = :'pid'`. -/
def ProjectRow.isProject (pid : String) (row : ProjectRow) : Bool := row.uuid = pid || row.id = pid

def whereProject : List Char :=
  "WHERE project_uuid::text = :'pid' ".toList ++ "OR id::text = :'pid'".toList

def lockSql : List Char :=
  "UPDATE spine_lifecycle.project SET ".toList ++ "pipeline_version = :'version', ".toList ++
    "metadata = COALESCE(metadata,'\x7b\x7d'::jsonb) || ".toList ++ "jsonb_build_object(".toList ++
    "'pipeline_manifest_snapshot', (:'snap')::jsonb) ".toList ++ whereProject ++ [';']

def lockedSql : List Char :=
  "SELECT pipeline_version, COALESCE(".toList ++
    "metadata->>'pipeline_manifest_snapshot','') ".toList ++
    "FROM spine_lifecycle.project ".toList ++ whereProject ++ " LIMIT 1;".toList

section
variable (reprOf : PyValue → String) (copySet : List Atom → List Atom)

/-- `_snapshot`. -/
def snapshotText (m : PipelineManifest) : Option (List Char) :=
  dumps reprOf (.dict (modelDump copySet m))

section
variable (isalnumBeyond : Char → Bool) (B : Bare)

/-- `lock_project_to_pipeline`; `none` is an exception, which leaves the table as it is. -/
def lockProjectToPipeline (table : ProjectTable) (projectId : String) (m : PipelineManifest) :
    Option ProjectTable := do
  let version ← computePipelineVersion reprOf copySet m
  let snap ← snapshotText reprOf copySet m
  let values ← psqlBound isalnumBeyond B lockSql
    [("version".toList, version.toList), ("snap".toList, snap), ("pid".toList, projectId.toList)]
  match values with
  | [version, snap, pid] =>
    let document ← castJsonb snap
    return table.map fun row =>
      if row.isProject (String.ofList pid) then row.locked (String.ofList version) document
      else row
  | _ => none

def asText : PyValue → Option String
  | .atom (.str s) => some s
  | _ => none

/-- `PipelineManifest(**body)` with what is missing of the derived fields filled in. -/
def manifestOfSnapshot (row : ProjectRow) : Option PipelineManifest := do
  let document ← row.snapshot
  let body ← (ofJson document).asDict
  let resolvedVersion ← asText
    ((Dict.get? body (.str "resolved_version")).getD (.text (row.pipelineVersion.getD "")))
  let .list chain := (Dict.get? body (.str "inheritance_chain")).getD (.list []) | none
  validated body resolvedVersion (← chain.mapM asText)

/-- `get_locked_pipeline`. -/
def getLockedPipeline (table : ProjectTable) (projectId : String) : Option PipelineManifest := do
  let values ← psqlBound isalnumBeyond B lockedSql [("pid".toList, projectId.toList)]
  match values with
  | [pid] => do manifestOfSnapshot (← table.find? (·.isProject (String.ofList pid)))
  | _ => none

/-- `is_pipeline_drifted`. -/
def isPipelineDrifted (table : ProjectTable) (projectId : String) (current : PipelineManifest) :
    Option Bool := do
  let locked ← getLockedPipeline isalnumBeyond B table projectId
  let lockedVersion ← computePipelineVersion reprOf copySet locked
  let currentVersion ← computePipelineVersion reprOf copySet current
  return lockedVersion ≠ currentVersion

end

end

end SpineFormal.Plan
