import SpineFormal.Json.Value

/-!
# Build artifacts

What a finished directive hands back: the files that it changed, the tests that it
added and ran, and a summary that counts both.
-/

namespace SpineFormal.Build

open Json
set_option autoImplicit false

inductive ChangeType where
  | create
  | modify
  | delete
  deriving DecidableEq

def ChangeType.text : ChangeType → String
  | .create => "create"
  | .modify => "modify"
  | .delete => "delete"

structure CodeChange where
  path : String
  changeType : ChangeType
  diffHash : String
  linesAdded : Nat
  linesRemoved : Nat
  language : Option String
  deriving DecidableEq

def CodeChange.dump (c : CodeChange) : Value :=
  .obj [("path", .str c.path), ("change_type", .str c.changeType.text),
    ("diff_hash", .str c.diffHash), ("lines_added", .int c.linesAdded),
    ("lines_removed", .int c.linesRemoved), ("language", nullable (c.language.map .str))]

inductive TestStatus where
  | added
  | modified
  | passed
  | failed
  | skipped
  | errored
  deriving DecidableEq

def TestStatus.text : TestStatus → String
  | .added => "added"
  | .modified => "modified"
  | .passed => "passed"
  | .failed => "failed"
  | .skipped => "skipped"
  | .errored => "errored"

structure TestRecord where
  testId : String
  path : String
  status : TestStatus
  durationMs : Nat
  failureMessage : Option String

def TestRecord.dump (t : TestRecord) : Value :=
  .obj [("test_id", .str t.testId), ("path", .str t.path), ("status", .str t.status.text),
    ("duration_ms", .int t.durationMs), ("failure_message", nullable (t.failureMessage.map .str))]

inductive ArtifactStatus where
  | sealed
  | draft
  | rejected
  deriving DecidableEq

def ArtifactStatus.text : ArtifactStatus → String
  | .sealed => "sealed"
  | .draft => "draft"
  | .rejected => "rejected"

/-- A validated artifact. The fields that nothing here looks into stand as they are dumped. -/
structure BuildArtifact where
  artifactUuid : String
  directiveId : String
  projectId : String
  phase : String
  role : String
  pipelineVersion : String
  parentDirectiveId : Option String
  codeChanges : List CodeChange
  testsAdded : List TestRecord
  testsRun : List TestRecord
  kgImpact : List Value
  cost : Value
  runtime : Value
  rationale : String
  status : ArtifactStatus
  auditorVerdict : Option String
  metadata : Value
  /-- `str(x)` of the elements of `metadata.engineering_goal_refs`, where that is a list. -/
  engineeringGoalRefs : List String

/-- `model_dump(mode="json")`. -/
def BuildArtifact.dump (a : BuildArtifact) : Value :=
  .obj [("version", .str "build-artifact-v1"), ("artifact_uuid", .str a.artifactUuid),
    ("directive_id", .str a.directiveId), ("project_id", .str a.projectId),
    ("phase", .str a.phase), ("role", .str a.role), ("pipeline_version", .str a.pipelineVersion),
    ("parent_directive_id", nullable (a.parentDirectiveId.map .str)),
    ("code_changes", .arr (a.codeChanges.map CodeChange.dump)),
    ("tests_added", .arr (a.testsAdded.map TestRecord.dump)),
    ("tests_run", .arr (a.testsRun.map TestRecord.dump)), ("kg_impact", .arr a.kgImpact),
    ("cost", a.cost), ("runtime", a.runtime), ("rationale", .str a.rationale),
    ("status", .str a.status.text), ("auditor_verdict", nullable (a.auditorVerdict.map .str)),
    ("metadata", a.metadata)]

structure DiffSummary where
  filesCreated : Nat := 0
  filesModified : Nat := 0
  filesDeleted : Nat := 0
  linesAdded : Nat := 0
  linesRemoved : Nat := 0
  testsAdded : Nat := 0
  testsPassed : Nat := 0
  testsFailed : Nat := 0
  testsSkipped : Nat := 0
  testsErrored : Nat := 0

namespace DiffSummary

def addChange (s : DiffSummary) (c : CodeChange) : DiffSummary :=
  let s := { s with
    linesAdded := s.linesAdded + c.linesAdded, linesRemoved := s.linesRemoved + c.linesRemoved }
  match c.changeType with
  | .create => { s with filesCreated := s.filesCreated + 1 }
  | .modify => { s with filesModified := s.filesModified + 1 }
  | .delete => { s with filesDeleted := s.filesDeleted + 1 }

/-- `if key in s: s[key] += 1`: of the other two statuses `tests_added` is a key as well, and
`tests_modified` is none. -/
def addTest (s : DiffSummary) (t : TestRecord) : DiffSummary :=
  match t.status with
  | .added => { s with testsAdded := s.testsAdded + 1 }
  | .modified => s
  | .passed => { s with testsPassed := s.testsPassed + 1 }
  | .failed => { s with testsFailed := s.testsFailed + 1 }
  | .skipped => { s with testsSkipped := s.testsSkipped + 1 }
  | .errored => { s with testsErrored := s.testsErrored + 1 }

def dump (s : DiffSummary) : Value :=
  .obj [("files_created", .int s.filesCreated), ("files_modified", .int s.filesModified),
    ("files_deleted", .int s.filesDeleted), ("lines_added", .int s.linesAdded),
    ("lines_removed", .int s.linesRemoved), ("tests_added", .int s.testsAdded),
    ("tests_passed", .int s.testsPassed), ("tests_failed", .int s.testsFailed),
    ("tests_skipped", .int s.testsSkipped), ("tests_errored", .int s.testsErrored)]

def files (s : DiffSummary) : Nat := s.filesCreated + s.filesModified + s.filesDeleted

theorem files_addChange (s : DiffSummary) (c : CodeChange) :
    (s.addChange c).files = s.files + 1 := by
  unfold addChange files
  cases c.changeType <;> dsimp only <;> omega

theorem files_addTest (s : DiffSummary) (t : TestRecord) : (s.addTest t).files = s.files := by
  unfold addTest files
  cases t.status <;> rfl

end DiffSummary

def BuildArtifact.computeDiffSummary (a : BuildArtifact) : DiffSummary :=
  a.testsRun.foldl DiffSummary.addTest
    (a.codeChanges.foldl DiffSummary.addChange { testsAdded := a.testsAdded.length })

/-- Every changed file is counted under one change type. -/
theorem BuildArtifact.files_computeDiffSummary (a : BuildArtifact) :
    a.computeDiffSummary.files = a.codeChanges.length := by
  have htests : ∀ (tests : List TestRecord) (s : DiffSummary),
      (tests.foldl DiffSummary.addTest s).files = s.files := by
    intro tests
    induction tests with
    | nil => exact fun s => rfl
    | cons t tests ih => exact fun s => (ih _).trans (s.files_addTest t)
  have hchanges : ∀ (changes : List CodeChange) (s : DiffSummary),
      (changes.foldl DiffSummary.addChange s).files = s.files + changes.length := by
    intro changes
    induction changes with
    | nil => exact fun s => rfl
    | cons c changes ih =>
      intro s
      rw [List.foldl_cons, ih, s.files_addChange, List.length_cons]
      omega
  rw [computeDiffSummary, htests, hchanges]
  exact Nat.zero_add _

end SpineFormal.Build
