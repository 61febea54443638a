import SpineFormal.Base.IsoFormat
import SpineFormal.Base.LineFile
import SpineFormal.Json.Column
import SpineFormal.Migration.ImportState

/-!
# Run manifests

A manifest names every input of a run. It is captured from the database, the files and git, each
of which may fail to answer; what cannot be had is "unknown". The models strip white space off
every string when they are built.
-/

namespace SpineFormal.Reproducibility

open Json
open Migration (hexdigestBytes)
set_option autoImplicit false

/-! ## Strings and dictionaries of a model -/

/-- A string of a model with `str_strip_whitespace`. -/
abbrev Stripped := { s : String // stripText s = s }

def Stripped.of (s : String) : Stripped := ⟨stripText s, stripText_stripText s⟩

theorem Stripped.of_val (s : Stripped) : Stripped.of s.1 = s := Subtype.ext s.2

/-- A dictionary whose keys are strings of a model. Dictionaries are equal whatever the order of
their keys, so it is kept with its keys in order. -/
structure Dict where
  members : Members
  sorted : (Value.obj members).sortKeys = .obj members
  distinct : (Value.obj members).Distinct
  stripped : ∀ m ∈ members, stripText m.1 = m.1

theorem mem_of_dictOf {ms : Members} {m : String × Value} (h : m ∈ dictOf ms) : m ∈ ms := by
  induction ms using List.reverseRecOn with
  | nil => exact h
  | append_singleton ms a ih =>
    rw [dictOf, List.foldl_append, ← dictOf, List.foldl_cons, List.foldl_nil] at h
    rcases mem_dictSet h with h | rfl
    · exact List.mem_append_left _ (ih h)
    · exact List.mem_append_right _ (List.mem_singleton_self a)

/-- The pairs with their keys stripped, as a dictionary. -/
def strippedKeys (ms : Members) : Members :=
  dictOf (dictsMembers (ms.map fun m => (stripText m.1, m.2)))

theorem mem_of_strippedKeys {ms : Members} {m : String × Value} (h : m ∈ strippedKeys ms) :
    ∃ n ∈ ms, m = (stripText n.1, n.2.dicts) := by
  have hmem := mem_of_dictOf h
  rw [dictsMembers_eq_map, List.map_map] at hmem
  obtain ⟨n, hn, rfl⟩ := List.mem_map.mp hmem
  exact ⟨n, hn, rfl⟩

theorem sortKeys_obj_eq (ms : Members) :
    (Value.obj ms).sortKeys = .obj ((sortMembers ms).insertionSort keyLe) := by
  rw [Value.sortKeys]

theorem distinct_strippedKeys (ms : Members) : (Value.obj (strippedKeys ms)).Distinct := by
  have h := dicts_distinct (.obj (ms.map fun m => (stripText m.1, m.2)))
  rwa [Value.dicts] at h

/-- What the validation of a field `dict[str, ...]` makes of a dictionary. -/
def Dict.of (ms : Members) : Dict where
  members := (sortMembers (strippedKeys ms)).insertionSort keyLe
  sorted := by
    rw [← sortKeys_obj_eq]
    exact sortKeys_sortKeys _
  distinct := by
    rw [← sortKeys_obj_eq]
    exact distinct_sortKeys (distinct_strippedKeys ms)
  stripped := by
    intro m hm
    rw [List.mem_insertionSort, sortMembers_eq_map] at hm
    obtain ⟨n, hn, rfl⟩ := List.mem_map.mp hm
    obtain ⟨a, -, rfl⟩ := mem_of_strippedKeys hn
    dsimp only
    exact stripText_stripText a.1

/-- The values of the dictionary are those of the pairs, with their own dictionaries in order. -/
theorem Dict.mem_of {ms : Members} {m : String × Value} (h : m ∈ (Dict.of ms).members) :
    ∃ n ∈ ms, m.2 = n.2.dicts.sortKeys := by
  have hm : m ∈ (sortMembers (strippedKeys ms)).insertionSort keyLe := h
  rw [List.mem_insertionSort, sortMembers_eq_map] at hm
  obtain ⟨a, ha, rfl⟩ := List.mem_map.mp hm
  obtain ⟨n, hn, rfl⟩ := mem_of_strippedKeys ha
  exact ⟨n, hn, rfl⟩

/-- A dictionary of a model is validated again as it is. -/
theorem Dict.of_members (d : Dict) : Dict.of d.members = d := by
  have hstrip : (d.members.map fun m => (stripText m.1, m.2)) = d.members :=
    map_self_iff.mpr fun m hm => Prod.ext (d.stripped m hm) rfl
  have hdicts : strippedKeys d.members = d.members := by
    have h := dicts_of_distinct d.distinct
    rw [Value.dicts] at h
    rw [strippedKeys, hstrip]
    exact Value.obj.inj h
  have hmembers : (Dict.of d.members).members = d.members := by
    have hsorted := d.sorted
    rw [sortKeys_obj_eq] at hsorted
    show (sortMembers (strippedKeys d.members)).insertionSort keyLe = d.members
    rw [hdicts]
    exact Value.obj.inj hsorted
  cases hd : Dict.of d.members
  cases d
  rw [hd] at hmembers
  cases hmembers
  rfl

/-- What the validation of a field `dict[str, str]` makes of a dictionary. -/
def textDict (pairs : List (String × String)) : Dict :=
  Dict.of (pairs.map fun p => (p.1, .str (stripText p.2)))

theorem textDict_text (pairs : List (String × String)) :
    ∀ m ∈ (textDict pairs).members, ∃ s : Stripped, m.2 = .str s.1 := by
  intro m hm
  obtain ⟨n, hn, heq⟩ := Dict.mem_of hm
  obtain ⟨p, -, rfl⟩ := List.mem_map.mp hn
  exact ⟨Stripped.of p.2, heq⟩

/-! ## The models -/

structure InputsRef where
  directiveText : Stripped
  directiveSha256 : Stripped
  prdRef : Option Stripped := none
  prdSha256 : Option Stripped := none
  trdRef : Option Stripped := none
  trdSha256 : Option Stripped := none
  roadmapRef : Option Stripped := none
  roadmapSha256 : Option Stripped := none
  orgBundleId : Option Stripped := none
  orgBundleSha256 : Option Stripped := none
  intakeTemplateRef : Option Stripped := none

structure PipelineRef where
  pipelineManifestPath : Stripped
  pipelineVersion : Stripped
  pipelineSha256 : Stripped

/-- The versions are strings, by skill. -/
structure RoleRef where
  roleName : Stripped
  rolePromptPath : Stripped
  rolePromptSha256 : Stripped
  skillsActive : List Stripped
  skillsVersions : Dict
  versions_text : ∀ m ∈ skillsVersions.members, ∃ s : Stripped, m.2 = .str s.1

structure RuntimeRef where
  modelId : Stripped
  modelProvider : Stripped
  temperature : Option PyFloat := none
  maxTokens : Option Int := none

structure GitState where
  commitSha : Stripped
  branch : Stripped
  dirty : Bool
  dirtyFiles : List Stripped

structure DependencyState where
  pythonPackagesLockfileSha : Option Stripped := none
  nodePackagesLockfileSha : Option Stripped := none

/-- `format_version` has one value. -/
structure RunManifest where
  manifestUuid : Uuid
  createdAt : DateTime
  projectId : Stripped
  phase : Stripped
  directiveId : Stripped
  inputs : InputsRef
  pipeline : PipelineRef
  role : RoleRef
  runtime : RuntimeRef
  gitState : GitState
  dependencies : DependencyState
  metadata : Dict

/-! ## The surroundings -/

/-- What a file, a query or a command gives. `failed` is what the helpers turn into `None`, `raised`
any other exception. -/
inductive Answer (α : Type) where
  | ok (a : α)
  | failed
  | raised

/-- `None` for a failure; an exception goes on. -/
def Answer.tolerated {α : Type} : Answer α → Option (Option α)
  | .ok a => some (some a)
  | .failed => some none
  | .raised => none

structure World where
  readBytes : String → Answer Bytes
  /-- The standard output of `psql` for a query. -/
  psql : String → Answer (List Char)
  git : List String → Answer (List Char)
  /-- The registered skills and their versions; `failed` is `ImportError`. -/
  skills : Answer (List (String × String))

namespace World
variable (w : World)

/-- `_sha256_file`. -/
def sha256File (path : String) : Option (Option String) :=
  (w.readBytes path).tolerated.map (Option.map hexdigestBytes)

/-- `_psql`: `r.stdout.strip() or None`. -/
def query (sql : String) : Option (Option String) :=
  (w.psql sql).tolerated.map fun out => out.bind fun stdout =>
    let text := trimBy pySpace stdout
    if text = [] then none else some (String.ofList text)

/-- `_git`. -/
def gitOutput (args : List String) : Option (Option (List Char)) :=
  (w.git args).tolerated.map (Option.map (trimBy pySpace))

end World

/-- `_esc`. -/
def esc (s : String) : String :=
  String.ofList (s.toList.flatMap fun c => if c = '\'' then ['\'', '\''] else [c])

/-- `value or default`. -/
def orElse (value : Option String) (default : String) : String :=
  match value with
  | some s => if s = "" then default else s
  | none => default

/-! ## Capturing -/

def roleOf (roleName rolePrompt promptSha : String) (skills : List (String × String)) :
    RoleRef where
  roleName := Stripped.of roleName
  rolePromptPath := Stripped.of rolePrompt
  rolePromptSha256 := Stripped.of promptSha
  skillsActive := ((skills.map Prod.fst).insertionSort (· ≤ ·)).map Stripped.of
  skillsVersions := textDict skills
  versions_text := textDict_text skills

namespace World
variable (w : World)

def gitState : Option GitState := do
  let head ← w.gitOutput ["rev-parse", "HEAD"]
  let branch ← w.gitOutput ["rev-parse", "--abbrev-ref", "HEAD"]
  let status ← w.gitOutput ["status", "--porcelain"]
  let dirtyFiles := ((splitlines (status.getD [])).filter fun line => line ≠ []).map
    fun line => Stripped.of (String.ofList (line.drop 3))
  return { commitSha := Stripped.of (orElse (head.map String.ofList) "unknown")
           branch := Stripped.of (orElse (branch.map String.ofList) "unknown")
           dirty := !dirtyFiles.isEmpty, dirtyFiles := dirtyFiles }

/-- `_first_lock_sha`. -/
def firstLockSha : List String → Option (Option String)
  | [] => some none
  | name :: names => do
    match ← w.sha256File name with
    | some sha => return some sha
    | none => firstLockSha names

def contextQuery (directiveId : String) : String :=
  "SELECT rh.project_id::text, rh.phase, rh.role, p.pipeline_version, p.pipeline_manifest_path, " ++
    "p.org_bundle FROM spine_lifecycle.route_history rh JOIN spine_lifecycle.project p " ++
    "ON p.id = rh.project_id WHERE rh.directive_ref = '" ++ esc directiveId ++ "' LIMIT 1;"

def decisionQuery (directiveId : String) : String :=
  "SELECT metadata->>'model', metadata->>'provider' FROM spine_audit.audit_event " ++
    "WHERE subject_id = '" ++ esc directiveId ++
    "' AND action = 'llm_call' ORDER BY ts DESC LIMIT 1;"

/-- The columns of a row, as far as there are any. -/
def columns (row : Option String) : List String :=
  match row with
  | none => []
  | some text => (text.toList.splitOn '|').map String.ofList

/-- `_active_skills`. -/
def activeSkills : Option (List (String × String)) := w.skills.tolerated.map fun reg => reg.getD []

/-- `_sha256_file(Path(pipe_path)) if pipe_path else ""`. -/
def pipelineSha (pipePath : String) : Option (Option String) :=
  if pipePath = "" then some none else w.sha256File pipePath

/-- `capture_manifest`; `none` is an exception. The identifier and the time are drawn anew. -/
def captureManifest (fresh : Uuid × DateTime) (directiveId directiveText : String)
    (rolePromptPath : Option String) (extraMetadata : Members) : Option RunManifest := do
  let ctx := columns (← w.query (contextQuery directiveId))
  let decision := columns (← w.query (decisionQuery directiveId))
  let pipePath := orElse ctx[4]? ""
  let roleName := orElse ctx[2]? "unknown"
  let rolePrompt := orElse rolePromptPath ("shared/charters/" ++ roleName ++ ".md")
  let skills ← w.activeSkills
  let pipelineSha ← w.pipelineSha pipePath
  let promptSha ← w.sha256File rolePrompt
  let git ← w.gitState
  let pythonLock ←
    w.firstLockSha ["uv.lock", "poetry.lock", "requirements.lock", "requirements.txt"]
  let nodeLock ← w.firstLockSha ["pnpm-lock.yaml", "yarn.lock", "package-lock.json"]
  return {
    manifestUuid := fresh.1
    createdAt := fresh.2
    projectId := Stripped.of (orElse ctx[0]? "unknown")
    phase := Stripped.of (orElse ctx[1]? "unknown")
    directiveId := Stripped.of directiveId
    inputs :=
      { directiveText := Stripped.of directiveText
        directiveSha256 := Stripped.of (hexdigest directiveText.toList)
        orgBundleId := ctx[5]?.map Stripped.of }
    pipeline :=
      { pipelineManifestPath := Stripped.of (orElse (some pipePath) "unknown")
        pipelineVersion := Stripped.of (orElse ctx[3]? "unknown")
        pipelineSha256 := Stripped.of (orElse pipelineSha "") }
    role := roleOf roleName rolePrompt (orElse promptSha "") skills
    runtime :=
      { modelId := Stripped.of (orElse decision[0]? "unknown")
        modelProvider := Stripped.of (orElse decision[1]? "unknown") }
    gitState := git
    dependencies :=
      { pythonPackagesLockfileSha := pythonLock.map Stripped.of
        nodePackagesLockfileSha := nodeLock.map Stripped.of }
    metadata := Dict.of extraMetadata }

end World

end SpineFormal.Reproducibility
