import SpineFormal.Base.TextRecords
import SpineFormal.Json.Indented
import SpineFormal.Json.Record
import SpineFormal.Reproducibility.Manifest

/-!
# Saved manifests

A manifest is written as a document in JSON or YAML and validated when it is loaded. The document
writes a time with the minutes of its offset and has no number that is not finite.
-/

namespace SpineFormal.Reproducibility

open Json Numerals
set_option autoImplicit false

/-! ## Fields -/

/-- What the validation of the other types accepts besides what a document writes. -/
structure Coercions where
  uuid : Value → Option Uuid
  dateTime : Value → Option DateTime
  float : Value → Option PyFloat
  int : Value → Option Int
  bool : Value → Option Bool

def text : Codec Stripped where
  dump s := .str s.1
  read
    | .str s => some (Stripped.of s)
    | _ => none
  read_dump s := congrArg some s.of_val

def optText : Codec (Option Stripped) := text.option fun _ => by simp [text, Value.sortKeys]

def texts : Codec (List Stripped) := text.list

def dict : Codec Dict where
  dump d := .obj d.members
  read
    | .obj ms => some (Dict.of ms)
    | _ => none
  read_dump d := by
    rw [d.sorted]
    exact congrArg some d.of_members

/-- A field `dict[str, str]`. -/
abbrev Versions := { d : Dict // ∀ m ∈ d.members, ∃ s : Stripped, m.2 = .str s.1 }

def textMember : String × Value → Option (String × String)
  | (key, .str s) => some (key, s)
  | _ => none

theorem exists_textMembers {ms : Members} (h : ∀ m ∈ ms, ∃ s : Stripped, m.2 = .str s.1) :
    ∃ pairs, ms.mapM textMember = some pairs ∧
      (pairs.map fun p => (p.1, Value.str (stripText p.2))) = ms := by
  induction ms with
  | nil => exact ⟨[], rfl, rfl⟩
  | cons m ms ih =>
    obtain ⟨⟨s, hs⟩, hms⟩ := List.forall_mem_cons.mp h
    obtain ⟨pairs, hpairs, hmap⟩ := ih hms
    obtain ⟨key, v⟩ := m
    obtain rfl : v = .str s.1 := hs
    refine ⟨(key, s.1) :: pairs, ?_, ?_⟩
    · rw [List.mapM_cons, hpairs]
      rfl
    · rw [List.map_cons, hmap, s.2]

def versions : Codec Versions where
  dump d := .obj d.1.members
  read
    | .obj ms => (ms.mapM textMember).map fun pairs => ⟨textDict pairs, textDict_text pairs⟩
    | _ => none
  read_dump d := by
    obtain ⟨pairs, hpairs, hmap⟩ := exists_textMembers d.2
    have hdict : textDict pairs = d.1 := by rw [textDict, hmap, d.1.of_members]
    rw [d.1.sorted]
    dsimp only
    rw [hpairs, Option.map_some]
    exact congrArg some (Subtype.ext hdict)

section
variable (C : Coercions)

def uuid : Codec Uuid where
  dump u := .str (String.ofList u.text)
  read
    | .str s => (Uuid.read s.toList).or (C.uuid (.str s))
    | v => C.uuid v
  read_dump u := by simp [Value.sortKeys, u.read_text]

def flag : Codec Bool where
  dump := .bool
  read
    | .bool b => some b
    | v => C.bool v
  read_dump _ := rfl

def int : Codec Int where
  dump := .int
  read
    | .int n => some n
    | v => C.int v
  read_dump _ := rfl

def optInt : Codec (Option Int) := (int C).option fun _ => by simp [int, Value.sortKeys]

end

/-! ## Numbers and times -/

def isFinite : PyFloat → Bool
  | .nan | .inf _ => false
  | .zero _ | .finite .. => true

/-- What a document writes for a number. -/
def jsonFloat (x : PyFloat) : Value := if isFinite x then .float x else .null

mutual
/-- What a document writes for a value. -/
def inJson : Value → Value
  | .float x => jsonFloat x
  | .arr xs => .arr (inJsonElems xs)
  | .obj ms => .obj (inJsonMembers ms)
  | v => v
def inJsonElems : List Value → List Value
  | [] => []
  | v :: vs => inJson v :: inJsonElems vs
def inJsonMembers : Members → Members
  | [] => []
  | (k, v) :: ms => (k, inJson v) :: inJsonMembers ms
end

/-- The values that JSON has: all but the floats that are not finite. -/
inductive IsJson : Value → Prop where
  | null : IsJson .null
  | bool (b : Bool) : IsJson (.bool b)
  | int (n : Int) : IsJson (.int n)
  | float (x : PyFloat) (h : isFinite x = true) : IsJson (.float x)
  | str (s : String) : IsJson (.str s)
  | arr (xs : List Value) (h : ∀ v ∈ xs, IsJson v) : IsJson (.arr xs)
  | obj (ms : Members) (h : ∀ m ∈ ms, IsJson m.2) : IsJson (.obj ms)

theorem inJsonMembers_eq_map (ms : Members) :
    inJsonMembers ms = ms.map fun m => (m.1, inJson m.2) := by
  induction ms with
  | nil => rfl
  | cons m ms ih => rw [inJsonMembers, ih, List.map_cons]

theorem inJsonElems_eq_map (xs : List Value) : inJsonElems xs = xs.map inJson := by
  induction xs with
  | nil => rfl
  | cons v vs ih => rw [inJsonElems, ih, List.map_cons]

theorem inJson_of_isJson {v : Value} (h : IsJson v) : inJson v = v := by
  induction h with
  | null | bool b | int n | str s => rfl
  | float x hx => rw [inJson, jsonFloat, if_pos hx]
  | arr xs _ ih => rw [inJson, inJsonElems_eq_map, map_self_iff.mpr ih]
  | obj ms _ ih =>
    have hmap : (ms.map fun m => (m.1, inJson m.2)) = ms := by
      refine map_self_iff.mpr fun m hm => ?_
      rw [ih m hm]
    rw [inJson, inJsonMembers_eq_map, hmap]

/-- The offset in seconds, rounded half away from zero. -/
def offsetSeconds (offset : Int) : Int := offset.sign * ((offset.natAbs + 500000) / 1000000 : Nat)

/-- The offset as a document writes it: the seconds are left out. -/
def zoneJson (offset : Int) : List Char :=
  let seconds := offsetSeconds offset
  if seconds = 0 then ['Z']
  else (if seconds < 0 then '-' else '+') ::
    (fixed 10 2 (seconds.natAbs / 60 / 60) ++ ':' :: fixed 10 2 (seconds.natAbs / 60 % 60))

def timeJson : DateTime → List Char
  | .naive w => w.isoformat
  | .aware a => a.wall.isoformat ++ zoneJson a.offset

/-- `±HH:MM` with more than 59 minutes. -/
def wideMinutes (zone : List Char) : Bool := (readFixed 10 2 0 (zone.drop 4)).any fun p => 59 < p.1

def microsPerMinute : Int := 60000000

/-- A time in the form of a document; other forms are left to the coercions. -/
def readDateTime (C : Coercions) : Value → Option DateTime
  | .str s =>
    match Calendar.read s.toList with
    | some (fields, zone) =>
      match readZone zone with
      | some offset =>
        if wideMinutes zone then none
        else (Wall.ofFields fields).bind fun w => w.withOffset (offset.map (· * microsPerMinute))
      | none => C.dateTime (.str s)
    | none => C.dateTime (.str s)
  | v => C.dateTime v

/-- The offset that is read back from a document, in minutes. -/
def offsetMinutes (offset : Int) : Int := offset.sign * ((offsetSeconds offset).natAbs / 60 : Nat)

theorem offsetSeconds_natAbs (offset : Int) :
    (offsetSeconds offset).natAbs = (offset.natAbs + 500000) / 1000000 := by
  rw [offsetSeconds, Int.natAbs_mul, Int.natAbs_natCast]
  rcases Int.lt_trichotomy offset 0 with h | rfl | h
  · rw [Int.sign_eq_neg_one_of_neg h]
    exact Nat.one_mul _
  · rfl
  · rw [Int.sign_eq_one_of_pos h]
    exact Nat.one_mul _

theorem offsetSeconds_neg_iff {offset : Int} (h : offsetSeconds offset ≠ 0) :
    offsetSeconds offset < 0 ↔ offset < 0 := by
  unfold offsetSeconds at h ⊢
  rcases Int.lt_trichotomy offset 0 with hneg | rfl | hpos
  · rw [Int.sign_eq_neg_one_of_neg hneg] at h ⊢
    omega
  · simp at h
  · rw [Int.sign_eq_one_of_pos hpos] at h ⊢
    omega

theorem readZone_zoneJson {offset : Int} (h : offset.natAbs < dayMicros) :
    readZone (zoneJson offset) = some (some (offsetMinutes offset)) := by
  have habs := offsetSeconds_natAbs offset
  unfold zoneJson
  dsimp only
  by_cases h0 : offsetSeconds offset = 0
  · rw [if_pos h0, offsetMinutes, h0]
    simp [readZone]
  · have hn : (offsetSeconds offset).natAbs / 60 < 6000 := by
      unfold dayMicros at h
      omega
    rw [if_neg h0, offsetMinutes]
    by_cases hneg : offset < 0
    · rw [if_pos ((offsetSeconds_neg_iff h0).mpr hneg), Int.sign_eq_neg_one_of_neg hneg]
      simp [readZone, readOffset_text true hn]
    · have hpos : 0 < offset := by
        rcases Int.lt_trichotomy offset 0 with hlt | rfl | hlt
        · exact absurd hlt hneg
        · exact absurd rfl h0
        · exact hlt
      rw [if_neg (mt (offsetSeconds_neg_iff h0).mp hneg), Int.sign_eq_one_of_pos hpos]
      simp [readZone, readOffset_text false hn]

theorem wideMinutes_eq_false (sign : Char) (hours : Nat) {minutes : Nat} (h : minutes < 60) :
    wideMinutes (sign :: (fixed 10 2 hours ++ ':' :: fixed 10 2 minutes)) = false := by
  have hread : readFixed 10 2 0 (fixed 10 2 minutes) = some (minutes, []) := by
    have happend := readDecimal (show minutes < 10 ^ 2 by omega) []
    rwa [List.append_nil] at happend
  have hdrop : (sign :: (fixed 10 2 hours ++ ':' :: fixed 10 2 minutes)).drop 4 =
      fixed 10 2 minutes := by
    simp [List.drop_append]
  rw [wideMinutes, hdrop, hread, Option.any_some]
  exact decide_eq_false (Nat.not_lt.mpr (Nat.le_of_lt_succ h))

theorem wideMinutes_zoneJson (offset : Int) : wideMinutes (zoneJson offset) = false := by
  unfold zoneJson
  dsimp only
  split_ifs
  · rfl
  · exact wideMinutes_eq_false _ _ (Nat.mod_lt _ (by decide))
  · exact wideMinutes_eq_false _ _ (Nat.mod_lt _ (by decide))

theorem zoneJson_head (offset : Int) : ∀ c ∈ (zoneJson offset).head?, c ≠ '.' := by
  unfold zoneJson
  dsimp only
  split_ifs <;> simp

theorem readDateTime_naive (C : Coercions) (w : Wall) :
    readDateTime C (.str (String.ofList (timeJson (.naive w)))) = some (.naive w) := by
  have hread := Calendar.read_isoformat w.calendar_fits (s := []) (by simp)
  rw [List.append_nil] at hread
  have hzone : readZone [] = some none := rfl
  have hwide : wideMinutes [] = false := rfl
  simp only [readDateTime, timeJson, String.toList_ofList, Wall.isoformat, hread, hzone, hwide,
    Wall.ofFields_calendar, Option.bind_some]
  rfl

theorem readDateTime_aware (C : Coercions) (a : Aware) :
    readDateTime C (.str (String.ofList (timeJson (.aware a)))) =
      a.wall.withOffset (some (offsetMinutes a.offset * microsPerMinute)) := by
  have hread := Calendar.read_isoformat a.wall.calendar_fits (zoneJson_head a.offset)
  simp only [readDateTime, timeJson, String.toList_ofList, Wall.isoformat, hread,
    readZone_zoneJson a.offset_lt, wideMinutes_zoneJson, Wall.ofFields_calendar, Option.bind_some]
  rfl

theorem offsetMinutes_mul_iff {offset : Int} :
    offsetMinutes offset * microsPerMinute = offset ↔ offset % microsPerMinute = 0 := by
  constructor
  · intro h
    rw [← h]
    exact Int.mul_emod_left _ _
  · intro h
    rw [offsetMinutes, offsetSeconds_natAbs]
    unfold microsPerMinute at h ⊢
    rcases Int.lt_trichotomy offset 0 with hneg | rfl | hpos
    · rw [Int.sign_eq_neg_one_of_neg hneg]
      omega
    · rfl
    · rw [Int.sign_eq_one_of_pos hpos]
      omega

/-! ## Documents -/

namespace InputsRef

def fields : List String :=
  ["directive_text", "directive_sha256", "prd_ref", "prd_sha256", "trd_ref", "trd_sha256",
   "roadmap_ref", "roadmap_sha256", "org_bundle_id", "org_bundle_sha256", "intake_template_ref"]

def members (r : InputsRef) : Members :=
  [("directive_text", text.dump r.directiveText), ("directive_sha256", text.dump r.directiveSha256),
   ("prd_ref", optText.dump r.prdRef), ("prd_sha256", optText.dump r.prdSha256),
   ("trd_ref", optText.dump r.trdRef), ("trd_sha256", optText.dump r.trdSha256),
   ("roadmap_ref", optText.dump r.roadmapRef), ("roadmap_sha256", optText.dump r.roadmapSha256),
   ("org_bundle_id", optText.dump r.orgBundleId),
   ("org_bundle_sha256", optText.dump r.orgBundleSha256),
   ("intake_template_ref", optText.dump r.intakeTemplateRef)]

def validate : Value → Option InputsRef
  | .obj ms => do
    if !onlyKeys fields ms then none
    let directiveText ← readOr ms "directive_text" none text.read
    let directiveSha256 ← readOr ms "directive_sha256" none text.read
    let prdRef ← readOr ms "prd_ref" (some none) optText.read
    let prdSha256 ← readOr ms "prd_sha256" (some none) optText.read
    let trdRef ← readOr ms "trd_ref" (some none) optText.read
    let trdSha256 ← readOr ms "trd_sha256" (some none) optText.read
    let roadmapRef ← readOr ms "roadmap_ref" (some none) optText.read
    let roadmapSha256 ← readOr ms "roadmap_sha256" (some none) optText.read
    let orgBundleId ← readOr ms "org_bundle_id" (some none) optText.read
    let orgBundleSha256 ← readOr ms "org_bundle_sha256" (some none) optText.read
    let intakeTemplateRef ← readOr ms "intake_template_ref" (some none) optText.read
    return ⟨directiveText, directiveSha256, prdRef, prdSha256, trdRef, trdSha256, roadmapRef,
      roadmapSha256, orgBundleId, orgBundleSha256, intakeTemplateRef⟩
  | _ => none

theorem members_nodup (r : InputsRef) : (r.members.map Prod.fst).Nodup := by
  simp [members]

theorem validate_members (r : InputsRef) : validate (Value.obj r.members).sortKeys = some r := by
  obtain ⟨sorted, hsorted, -⟩ := sortKeys_obj r.members
  have hkeys : onlyKeys fields sorted = true := onlyKeys_sortKeys hsorted rfl
  have hd := r.members_nodup
  rw [hsorted]
  simp [validate, hkeys, readOr_dump hd hsorted "directive_text" text rfl,
    readOr_dump hd hsorted "directive_sha256" text rfl,
    readOr_dump hd hsorted "prd_ref" optText rfl, readOr_dump hd hsorted "prd_sha256" optText rfl,
    readOr_dump hd hsorted "trd_ref" optText rfl, readOr_dump hd hsorted "trd_sha256" optText rfl,
    readOr_dump hd hsorted "roadmap_ref" optText rfl,
    readOr_dump hd hsorted "roadmap_sha256" optText rfl,
    readOr_dump hd hsorted "org_bundle_id" optText rfl,
    readOr_dump hd hsorted "org_bundle_sha256" optText rfl,
    readOr_dump hd hsorted "intake_template_ref" optText rfl]

def codec : Codec InputsRef where
  dump r := .obj r.members
  read := validate
  read_dump := validate_members

end InputsRef

namespace PipelineRef

def fields : List String := ["pipeline_manifest_path", "pipeline_version", "pipeline_sha256"]

def members (r : PipelineRef) : Members :=
  [("pipeline_manifest_path", text.dump r.pipelineManifestPath),
   ("pipeline_version", text.dump r.pipelineVersion),
   ("pipeline_sha256", text.dump r.pipelineSha256)]

def validate : Value → Option PipelineRef
  | .obj ms => do
    if !onlyKeys fields ms then none
    let pipelineManifestPath ← readOr ms "pipeline_manifest_path" none text.read
    let pipelineVersion ← readOr ms "pipeline_version" none text.read
    let pipelineSha256 ← readOr ms "pipeline_sha256" none text.read
    return ⟨pipelineManifestPath, pipelineVersion, pipelineSha256⟩
  | _ => none

theorem members_nodup (r : PipelineRef) : (r.members.map Prod.fst).Nodup := by
  simp [members]

theorem validate_members (r : PipelineRef) : validate (Value.obj r.members).sortKeys = some r := by
  obtain ⟨sorted, hsorted, -⟩ := sortKeys_obj r.members
  have hkeys : onlyKeys fields sorted = true := onlyKeys_sortKeys hsorted rfl
  have hd := r.members_nodup
  rw [hsorted]
  simp [validate, hkeys, readOr_dump hd hsorted "pipeline_manifest_path" text rfl,
    readOr_dump hd hsorted "pipeline_version" text rfl,
    readOr_dump hd hsorted "pipeline_sha256" text rfl]

def codec : Codec PipelineRef where
  dump r := .obj r.members
  read := validate
  read_dump := validate_members

end PipelineRef

namespace RoleRef

def fields : List String :=
  ["role_name", "role_prompt_path", "role_prompt_sha256", "skills_active", "skills_versions"]

def members (r : RoleRef) : Members :=
  [("role_name", text.dump r.roleName), ("role_prompt_path", text.dump r.rolePromptPath),
   ("role_prompt_sha256", text.dump r.rolePromptSha256),
   ("skills_active", texts.dump r.skillsActive),
   ("skills_versions", versions.dump ⟨r.skillsVersions, r.versions_text⟩)]

def validate : Value → Option RoleRef
  | .obj ms => do
    if !onlyKeys fields ms then none
    let roleName ← readOr ms "role_name" none text.read
    let rolePromptPath ← readOr ms "role_prompt_path" none text.read
    let rolePromptSha256 ← readOr ms "role_prompt_sha256" none text.read
    let skillsActive ← readOr ms "skills_active" (some []) texts.read
    let skillsVersions ← readOr ms "skills_versions" (some ⟨textDict [], textDict_text []⟩)
      versions.read
    return ⟨roleName, rolePromptPath, rolePromptSha256, skillsActive, skillsVersions.1,
      skillsVersions.2⟩
  | _ => none

theorem members_nodup (r : RoleRef) : (r.members.map Prod.fst).Nodup := by
  simp [members]

theorem validate_members (r : RoleRef) : validate (Value.obj r.members).sortKeys = some r := by
  obtain ⟨sorted, hsorted, -⟩ := sortKeys_obj r.members
  have hkeys : onlyKeys fields sorted = true := onlyKeys_sortKeys hsorted rfl
  have hd := r.members_nodup
  rw [hsorted]
  simp [validate, hkeys, readOr_dump hd hsorted "role_name" text rfl,
    readOr_dump hd hsorted "role_prompt_path" text rfl,
    readOr_dump hd hsorted "role_prompt_sha256" text rfl,
    readOr_dump hd hsorted "skills_active" texts rfl,
    readOr_dump hd hsorted "skills_versions" versions rfl]

def codec : Codec RoleRef where
  dump r := .obj r.members
  read := validate
  read_dump := validate_members

end RoleRef

namespace GitState

def fields : List String := ["commit_sha", "branch", "dirty", "dirty_files"]

def members (g : GitState) : Members :=
  [("commit_sha", text.dump g.commitSha), ("branch", text.dump g.branch), ("dirty", .bool g.dirty),
   ("dirty_files", texts.dump g.dirtyFiles)]

def validate (C : Coercions) : Value → Option GitState
  | .obj ms => do
    if !onlyKeys fields ms then none
    let commitSha ← readOr ms "commit_sha" none text.read
    let branch ← readOr ms "branch" none text.read
    let dirty ← readOr ms "dirty" (some false) (flag C).read
    let dirtyFiles ← readOr ms "dirty_files" (some []) texts.read
    return ⟨commitSha, branch, dirty, dirtyFiles⟩
  | _ => none

theorem members_nodup (g : GitState) : (g.members.map Prod.fst).Nodup := by
  simp [members]

theorem validate_members (C : Coercions) (g : GitState) :
    validate C (Value.obj g.members).sortKeys = some g := by
  obtain ⟨sorted, hsorted, -⟩ := sortKeys_obj g.members
  have hkeys : onlyKeys fields sorted = true := onlyKeys_sortKeys hsorted rfl
  have hd := g.members_nodup
  rw [hsorted]
  simp [validate, hkeys, readOr_dump hd hsorted "commit_sha" text rfl,
    readOr_dump hd hsorted "branch" text rfl, readOr_dump hd hsorted "dirty" (flag C) rfl,
    readOr_dump hd hsorted "dirty_files" texts rfl]

def codec (C : Coercions) : Codec GitState where
  dump g := .obj g.members
  read := validate C
  read_dump := validate_members C

end GitState

namespace DependencyState

def fields : List String := ["python_packages_lockfile_sha", "node_packages_lockfile_sha"]

def members (d : DependencyState) : Members :=
  [("python_packages_lockfile_sha", optText.dump d.pythonPackagesLockfileSha),
   ("node_packages_lockfile_sha", optText.dump d.nodePackagesLockfileSha)]

def validate : Value → Option DependencyState
  | .obj ms => do
    if !onlyKeys fields ms then none
    let pythonPackagesLockfileSha ←
      readOr ms "python_packages_lockfile_sha" (some none) optText.read
    let nodePackagesLockfileSha ← readOr ms "node_packages_lockfile_sha" (some none) optText.read
    return ⟨pythonPackagesLockfileSha, nodePackagesLockfileSha⟩
  | _ => none

theorem members_nodup (d : DependencyState) : (d.members.map Prod.fst).Nodup := by
  simp [members]

theorem validate_members (d : DependencyState) :
    validate (Value.obj d.members).sortKeys = some d := by
  obtain ⟨sorted, hsorted, -⟩ := sortKeys_obj d.members
  have hkeys : onlyKeys fields sorted = true := onlyKeys_sortKeys hsorted rfl
  have hd := d.members_nodup
  rw [hsorted]
  simp [validate, hkeys, readOr_dump hd hsorted "python_packages_lockfile_sha" optText rfl,
    readOr_dump hd hsorted "node_packages_lockfile_sha" optText rfl]

def codec : Codec DependencyState where
  dump d := .obj d.members
  read := validate
  read_dump := validate_members

end DependencyState

namespace RuntimeRef

def fields : List String := ["model_id", "model_provider", "temperature", "max_tokens"]

def temperatureJson (r : RuntimeRef) : Value := nullable (r.temperature.map jsonFloat)

def members (r : RuntimeRef) : Members :=
  [("model_id", text.dump r.modelId), ("model_provider", text.dump r.modelProvider),
   ("temperature", r.temperatureJson), ("max_tokens", nullable (r.maxTokens.map .int))]

/-- A field `Optional[float]`. -/
def readOptFloat (C : Coercions) : Value → Option (Option PyFloat)
  | .null => some none
  | .float x => some (some x)
  | v => (C.float v).map some

def validate (C : Coercions) : Value → Option RuntimeRef
  | .obj ms => do
    if !onlyKeys fields ms then none
    let modelId ← readOr ms "model_id" none text.read
    let modelProvider ← readOr ms "model_provider" none text.read
    let temperature ← readOr ms "temperature" (some none) (readOptFloat C)
    let maxTokens ← readOr ms "max_tokens" (some none) (optInt C).read
    return ⟨modelId, modelProvider, temperature, maxTokens⟩
  | _ => none

theorem members_nodup (r : RuntimeRef) : (r.members.map Prod.fst).Nodup := by
  simp [members]

theorem readOptFloat_temperatureJson (C : Coercions) (r : RuntimeRef) :
    readOptFloat C r.temperatureJson.sortKeys = some (r.temperature.filter isFinite) := by
  unfold temperatureJson
  cases r.temperature with
  | none => rfl
  | some x =>
    rw [Option.map_some, nullable, Option.getD_some, jsonFloat, Option.filter_some]
    cases isFinite x <;> rfl

/-- What a document keeps: a temperature that is not finite is lost. -/
theorem validate_members (C : Coercions) (r : RuntimeRef) :
    validate C (Value.obj r.members).sortKeys =
      some { r with temperature := r.temperature.filter isFinite } := by
  obtain ⟨sorted, hsorted, -⟩ := sortKeys_obj r.members
  have hkeys : onlyKeys fields sorted = true := onlyKeys_sortKeys hsorted rfl
  have hd := r.members_nodup
  have htemperature := readOr_sortKeys hd hsorted "temperature" rfl (some none) (readOptFloat C)
  rw [readOptFloat_temperatureJson] at htemperature
  have htokens : lookup r.members "max_tokens" = some ((optInt C).dump r.maxTokens) := by
    cases h : r.maxTokens <;> simp [members, lookup, h, optInt, int, Codec.option, nullable]
  rw [hsorted]
  simp [validate, hkeys, readOr_dump hd hsorted "model_id" text rfl,
    readOr_dump hd hsorted "model_provider" text rfl, htemperature,
    readOr_dump hd hsorted "max_tokens" (optInt C) htokens]

end RuntimeRef

namespace RunManifest

def fields : List String :=
  ["manifest_uuid", "format_version", "created_at", "project_id", "phase", "directive_id", "inputs",
   "pipeline", "role", "runtime", "git_state", "dependencies", "metadata"]

/-- The document that `model_dump_json` writes. -/
def members (m : RunManifest) : Members :=
  [("manifest_uuid", .str (String.ofList m.manifestUuid.text)), ("format_version", .str "1"),
   ("created_at", .str (String.ofList (timeJson m.createdAt))),
   ("project_id", text.dump m.projectId), ("phase", text.dump m.phase),
   ("directive_id", text.dump m.directiveId), ("inputs", .obj m.inputs.members),
   ("pipeline", .obj m.pipeline.members), ("role", .obj m.role.members),
   ("runtime", .obj m.runtime.members), ("git_state", .obj m.gitState.members),
   ("dependencies", .obj m.dependencies.members), ("metadata", inJson (.obj m.metadata.members))]

def readFormatVersion : Value → Option Unit
  | .str s => if s = "1" then some () else none
  | _ => none

/-- `model_validate` of a mapping; what is missing is drawn anew. -/
def validate (C : Coercions) (fresh : Uuid × DateTime) (ms : Members) : Option RunManifest := do
  if !onlyKeys fields ms then none
  let manifestUuid ← readOr ms "manifest_uuid" (some fresh.1) (uuid C).read
  let _ ← readOr ms "format_version" (some ()) readFormatVersion
  let createdAt ← readOr ms "created_at" (some fresh.2) (readDateTime C)
  let projectId ← readOr ms "project_id" none text.read
  let phase ← readOr ms "phase" none text.read
  let directiveId ← readOr ms "directive_id" none text.read
  let inputs ← readOr ms "inputs" none InputsRef.codec.read
  let pipeline ← readOr ms "pipeline" none PipelineRef.codec.read
  let role ← readOr ms "role" none RoleRef.codec.read
  let runtime ← readOr ms "runtime" none (RuntimeRef.validate C)
  let gitState ← readOr ms "git_state" none (GitState.codec C).read
  let dependencies ← readOr ms "dependencies" (some {}) DependencyState.codec.read
  let metadata ← readOr ms "metadata" (some (Dict.of [])) dict.read
  return ⟨manifestUuid, createdAt, projectId, phase, directiveId, inputs, pipeline, role, runtime,
    gitState, dependencies, metadata⟩

theorem members_nodup (m : RunManifest) : (m.members.map Prod.fst).Nodup := by
  simp [members]

/-- What is read from the document of a manifest whose metadata is JSON. -/
theorem validate_members (C : Coercions) (fresh : Uuid × DateTime) (m : RunManifest)
    (hjson : IsJson (.obj m.metadata.members)) {sorted : Members}
    (hsorted : (Value.obj m.members).sortKeys = .obj sorted) :
    validate C fresh sorted =
      (readDateTime C (.str (String.ofList (timeJson m.createdAt)))).map fun createdAt =>
        { m with
          createdAt := createdAt
          runtime := { m.runtime with temperature := m.runtime.temperature.filter isFinite } } := by
  have hkeys : onlyKeys fields sorted = true := onlyKeys_sortKeys hsorted rfl
  have hd := m.members_nodup
  have hversion : readOr sorted "format_version" (some ()) readFormatVersion = some () :=
    readOr_sortKeys hd hsorted "format_version" rfl (some ()) readFormatVersion
  have hcreated : readOr sorted "created_at" (some fresh.2) (readDateTime C) =
      readDateTime C (.str (String.ofList (timeJson m.createdAt))) :=
    readOr_sortKeys hd hsorted "created_at" rfl (some fresh.2) (readDateTime C)
  have hruntime := readOr_sortKeys hd hsorted "runtime" rfl none (RuntimeRef.validate C)
  rw [RuntimeRef.validate_members] at hruntime
  have hmetadata : lookup m.members "metadata" = some (dict.dump m.metadata) := by
    simp [members, lookup, inJson_of_isJson hjson, dict]
  have huuid := readOr_dump hd hsorted "manifest_uuid" (uuid C) rfl (some fresh.1)
  have hgit := readOr_dump hd hsorted "git_state" (GitState.codec C) rfl none
  simp [validate, hkeys, huuid, hversion, hcreated, readOr_dump hd hsorted "project_id" text rfl,
    readOr_dump hd hsorted "phase" text rfl, readOr_dump hd hsorted "directive_id" text rfl,
    readOr_dump hd hsorted "inputs" InputsRef.codec rfl,
    readOr_dump hd hsorted "pipeline" PipelineRef.codec rfl,
    readOr_dump hd hsorted "role" RoleRef.codec rfl, hruntime, hgit,
    readOr_dump hd hsorted "dependencies" DependencyState.codec rfl,
    readOr_dump hd hsorted "metadata" dict hmetadata]
  cases readDateTime C (.str (String.ofList (timeJson m.createdAt))) <;> rfl

end RunManifest

theorem distinct_text (s : Stripped) : (text.dump s).Distinct := trivial

theorem distinct_optText (o : Option Stripped) : (optText.dump o).Distinct := by
  cases o <;> trivial

theorem distinct_texts (ss : List Stripped) : (texts.dump ss).Distinct := by
  refine (distinct_arr _).mpr fun v hv => ?_
  obtain ⟨s, -, rfl⟩ := List.mem_map.mp hv
  exact distinct_text s

theorem distinct_versions (d : Versions) : (versions.dump d).Distinct := d.1.distinct

theorem distinct_str (s : String) : (Value.str s).Distinct := trivial

theorem distinct_bool (b : Bool) : (Value.bool b).Distinct := trivial

theorem InputsRef.distinct (r : InputsRef) : (Value.obj r.members).Distinct :=
  (distinct_obj _).mpr ⟨r.members_nodup, by simp [members, distinct_text, distinct_optText]⟩

theorem PipelineRef.distinct (r : PipelineRef) : (Value.obj r.members).Distinct :=
  (distinct_obj _).mpr ⟨r.members_nodup, by simp [members, distinct_text]⟩

theorem RoleRef.distinct (r : RoleRef) : (Value.obj r.members).Distinct :=
  (distinct_obj _).mpr ⟨r.members_nodup, by
    simp [members, distinct_text, distinct_texts, distinct_versions]⟩

theorem GitState.distinct (g : GitState) : (Value.obj g.members).Distinct :=
  (distinct_obj _).mpr ⟨g.members_nodup, by
    simp [members, distinct_text, distinct_texts, distinct_bool]⟩

theorem DependencyState.distinct (d : DependencyState) : (Value.obj d.members).Distinct :=
  (distinct_obj _).mpr ⟨d.members_nodup, by simp [members, distinct_optText]⟩

theorem RuntimeRef.distinct (r : RuntimeRef) : (Value.obj r.members).Distinct := by
  have htemperature : r.temperatureJson.Distinct := by
    unfold temperatureJson
    cases r.temperature with
    | none => trivial
    | some x =>
      rw [Option.map_some, nullable, Option.getD_some, jsonFloat]
      split_ifs <;> trivial
  have htokens : (nullable (r.maxTokens.map Value.int)).Distinct := by
    cases r.maxTokens <;> trivial
  exact (distinct_obj _).mpr
    ⟨r.members_nodup, by simp [members, distinct_text, htemperature, htokens]⟩

theorem RunManifest.distinct {m : RunManifest} (hjson : IsJson (.obj m.metadata.members)) :
    (Value.obj m.members).Distinct := by
  refine (distinct_obj _).mpr ⟨m.members_nodup, ?_⟩
  simp [members, distinct_text, InputsRef.distinct, PipelineRef.distinct, RoleRef.distinct,
    GitState.distinct, DependencyState.distinct, RuntimeRef.distinct, inJson_of_isJson hjson,
    m.metadata.distinct, distinct_str]

/-! ## Files -/

/-- PyYAML, on the values that JSON has. -/
structure Yaml where
  safeDump : Value → List Char
  safeLoad : List Char → Option Value

/-- `safe_load` reads what `safe_dump` wrote with its keys in order, on lines that end in a
newline. -/
structure Yaml.Documented (Y : Yaml) : Prop where
  load_dump : ∀ v : Value, v.Distinct → Y.safeLoad (Y.safeDump v) = some v.sortKeys
  no_return : ∀ v, '\r' ∉ Y.safeDump v

def isJsonSuffix (suffix : String) : Bool := suffix.toLower == ".json"

/-- The text that `save_manifest` writes to a path with the suffix. -/
def saveManifest (Y : Yaml) (suffix : String) (m : RunManifest) : List Char :=
  if isJsonSuffix suffix then dumpsIndented (.obj m.members) else Y.safeDump (.obj m.members)

/-- `load_manifest`; `none` is an exception. -/
def loadManifest (Y : Yaml) (C : Coercions) (fresh : Uuid × DateTime) (suffix : String)
    (file : List Char) : Option RunManifest :=
  let text := universalNewlines file
  match if isJsonSuffix suffix then loadsText text else Y.safeLoad text with
  | some (.obj ms) => RunManifest.validate C fresh ms
  | _ => none

section
variable {Y : Yaml} {m : RunManifest}

/-- A saved manifest is loaded with the time and the temperature that its document has. -/
theorem loadManifest_saveManifest (hY : Y.Documented) (C : Coercions) (fresh : Uuid × DateTime)
    (suffix : String) (hjson : IsJson (.obj m.metadata.members)) :
    loadManifest Y C fresh suffix (saveManifest Y suffix m) =
      (readDateTime C (.str (String.ofList (timeJson m.createdAt)))).map fun createdAt =>
        { m with
          createdAt := createdAt
          runtime := { m.runtime with temperature := m.runtime.temperature.filter isFinite } } := by
  obtain ⟨sorted, hsorted, -⟩ := sortKeys_obj m.members
  have hd := RunManifest.distinct hjson
  have hread : (if isJsonSuffix suffix then loadsText (universalNewlines (saveManifest Y suffix m))
      else Y.safeLoad (universalNewlines (saveManifest Y suffix m))) = some (.obj sorted) := by
    unfold saveManifest
    split_ifs
    · rw [universalNewlines_eq_self (return_notMem_dumpsIndented _), loadsText_dumpsIndented hd,
        hsorted]
    · rw [universalNewlines_eq_self (hY.no_return _), hY.load_dump _ hd, hsorted]
  rw [loadManifest]
  dsimp only
  rw [hread]
  exact RunManifest.validate_members C fresh m hjson hsorted

/-- A whole number of minutes, or no offset at all. -/
def WholeMinutes : DateTime → Prop
  | .naive _ => True
  | .aware a => a.offset % microsPerMinute = 0

/-- What a document can carry. -/
structure RunManifest.Portable (m : RunManifest) : Prop where
  temperature : ∀ x ∈ m.runtime.temperature, isFinite x = true
  createdAt : WholeMinutes m.createdAt

/-- `==` of two times. -/
def SameTime : DateTime → DateTime → Prop
  | .naive w, .naive w' => w = w'
  | .aware a, .aware b => a.utc = b.utc
  | _, _ => False

/-- `==` of two manifests. -/
def RunManifest.Same (m m' : RunManifest) : Prop :=
  SameTime m.createdAt m'.createdAt ∧ { m with createdAt := m'.createdAt } = m'

theorem sameTime_refl (d : DateTime) : SameTime d d := by
  cases d <;> rfl

theorem withOffset_eq_some {w : Wall} {offset : Int} {d : DateTime}
    (h : w.withOffset (some offset) = some d) : ∃ hlt, d = .aware ⟨w, offset, hlt⟩ := by
  unfold Wall.withOffset at h
  dsimp only at h
  split_ifs at h with hlt
  exact ⟨hlt, (Option.some.inj h).symm⟩

theorem readDateTime_timeJson (C : Coercions) {d : DateTime} (h : WholeMinutes d) :
    readDateTime C (.str (String.ofList (timeJson d))) = some d := by
  cases d with
  | naive w => exact readDateTime_naive C w
  | aware a =>
    rw [readDateTime_aware, offsetMinutes_mul_iff.mpr h, Wall.withOffset, dif_pos a.offset_lt]

/-- The time that is read back is another one unless the offset is in minutes. -/
theorem wholeMinutes_of_sameTime {C : Coercions} {d d' : DateTime}
    (hread : readDateTime C (.str (String.ofList (timeJson d))) = some d')
    (hsame : SameTime d' d) : WholeMinutes d := by
  cases d with
  | naive w => trivial
  | aware a =>
    rw [readDateTime_aware] at hread
    obtain ⟨hlt, rfl⟩ := withOffset_eq_some hread
    refine offsetMinutes_mul_iff.mp ?_
    have hutc : (a.wall.micros : Int) - offsetMinutes a.offset * microsPerMinute =
        a.wall.micros - a.offset := hsame
    omega

theorem filter_isFinite_iff {o : Option PyFloat} :
    o.filter isFinite = o ↔ ∀ x ∈ o, isFinite x = true := by
  cases o with
  | none => simp
  | some x => simp [Option.filter_some]

theorem load_save_of_portable (hY : Y.Documented) (C : Coercions) (fresh : Uuid × DateTime)
    (suffix : String) (hjson : IsJson (.obj m.metadata.members)) (h : m.Portable) :
    loadManifest Y C fresh suffix (saveManifest Y suffix m) = some m := by
  rw [loadManifest_saveManifest hY C fresh suffix hjson, readDateTime_timeJson C h.createdAt,
    filter_isFinite_iff.mpr h.temperature]
  rfl

theorem portable_of_same (hY : Y.Documented) {C : Coercions} {fresh : Uuid × DateTime}
    {suffix : String} {m' : RunManifest} (hjson : IsJson (.obj m.metadata.members))
    (hload : loadManifest Y C fresh suffix (saveManifest Y suffix m) = some m')
    (hsame : m'.Same m) : m.Portable := by
  rw [loadManifest_saveManifest hY C fresh suffix hjson] at hload
  obtain ⟨d, hread, rfl⟩ := Option.map_eq_some_iff.mp hload
  obtain ⟨htime, hrest⟩ := hsame
  have htemperature := congrArg (fun m => m.runtime.temperature) hrest
  exact ⟨filter_isFinite_iff.mp htemperature, wholeMinutes_of_sameTime hread htime⟩

end

/-! ## The hash of the directive -/

theorem whiteSpace_hex {c : Char} {bs : Bytes} (hc : c ∈ hex bs) : whiteSpace c = false := by
  obtain ⟨b, -, hb⟩ := List.mem_flatMap.mp hc
  obtain ⟨d, hd, rfl⟩ := mem_fixed (by decide) hb
  have hdigits : ∀ d < 16, whiteSpace (Nat.digitChar d) = false := by decide
  exact hdigits d hd

theorem stripText_hexdigest (text : List Char) : stripText (hexdigest text) = hexdigest text := by
  rw [stripText, hexdigest_toList, trimBy_eq_self fun c hc => whiteSpace_hex hc]
  rfl

theorem captureManifest_inputs {w : World} {fresh : Uuid × DateTime}
    {directiveId directiveText : String} {rolePromptPath : Option String} {extra : Members}
    {m : RunManifest}
    (h : w.captureManifest fresh directiveId directiveText rolePromptPath extra = some m) :
    m.inputs.directiveText = Stripped.of directiveText ∧
      m.inputs.directiveSha256 = Stripped.of (hexdigest directiveText.toList) := by
  unfold World.captureManifest at h
  obtain ⟨ctx, -, h⟩ := Option.bind_eq_some_iff.mp h
  obtain ⟨decision, -, h⟩ := Option.bind_eq_some_iff.mp h
  obtain ⟨skills, -, h⟩ := Option.bind_eq_some_iff.mp h
  obtain ⟨pipelineSha, -, h⟩ := Option.bind_eq_some_iff.mp h
  obtain ⟨promptSha, -, h⟩ := Option.bind_eq_some_iff.mp h
  obtain ⟨git, -, h⟩ := Option.bind_eq_some_iff.mp h
  obtain ⟨pythonLock, -, h⟩ := Option.bind_eq_some_iff.mp h
  obtain ⟨nodeLock, -, h⟩ := Option.bind_eq_some_iff.mp h
  obtain rfl := Option.some.inj h
  exact ⟨rfl, rfl⟩

/-- The text and what is left of it without the white space around it. -/
def directiveMessages (directiveText : String) : Set Bytes :=
  {encodeUtf8 directiveText.toList, encodeUtf8 (stripText directiveText).toList}

theorem hexdigest_stripText_iff (directiveText : String) :
    hexdigest directiveText.toList = hexdigest (stripText directiveText).toList ↔
      stripText directiveText = directiveText ∨
        ¬ CollisionFreeOn (directiveMessages directiveText) := by
  constructor
  · intro h
    by_cases hcf : CollisionFreeOn (directiveMessages directiveText)
    · have heq := hexdigest_inj hcf (Set.mem_insert _ _) (Set.mem_insert_of_mem _ rfl) h
      exact .inl (String.toList_inj.mp heq).symm
    · exact .inr hcf
  · rintro (h | hcollision)
    · rw [h]
    · by_contra hne
      refine hcollision (Set.injOn_pair.mpr fun hsha => ?_)
      exact absurd (congrArg (fun digest => String.ofList (hex digest)) hsha) hne

/-- The hash of a captured manifest is that of its directive unless the text had white space around
it (or it and the text without are a collision), and a manifest is loaded as it was saved if its
temperature is finite and its time has an offset in minutes. -/
theorem manifest_kept_iff (Y : Yaml) (hY : Y.Documented) (C : Coercions)
    (fresh : Uuid × DateTime) :
    (∀ (w : World) (now : Uuid × DateTime) (directiveId directiveText : String)
      (rolePromptPath : Option String) (extraMetadata : Members) (m : RunManifest),
      w.captureManifest now directiveId directiveText rolePromptPath extraMetadata = some m →
      (m.inputs.directiveSha256.1 = hexdigest m.inputs.directiveText.1.toList ↔
        stripText directiveText = directiveText ∨
          ¬ CollisionFreeOn (directiveMessages directiveText))) ∧
    ∀ (m : RunManifest) (suffix : String), IsJson (.obj m.metadata.members) →
      (loadManifest Y C fresh suffix (saveManifest Y suffix m) = some m ↔ m.Portable) ∧
      ((∃ m', loadManifest Y C fresh suffix (saveManifest Y suffix m) = some m' ∧ m'.Same m) ↔
        m.Portable) := by
  constructor
  · intro w now directiveId directiveText rolePromptPath extra m h
    obtain ⟨htext, hsha⟩ := captureManifest_inputs h
    have hstripped : (Stripped.of (hexdigest directiveText.toList)).1 =
        hexdigest directiveText.toList := stripText_hexdigest _
    rw [htext, hsha, hstripped]
    exact hexdigest_stripText_iff directiveText
  · intro m suffix hjson
    have hload (h : m.Portable) := load_save_of_portable hY C fresh suffix hjson h
    refine ⟨⟨fun h => ?_, hload⟩, ?_, fun h => ?_⟩
    · exact portable_of_same hY hjson h ⟨sameTime_refl m.createdAt, rfl⟩
    · rintro ⟨m', h, hsame⟩
      exact portable_of_same hY hjson h hsame
    · exact ⟨m, hload h, sameTime_refl m.createdAt, rfl⟩

/-! ## Manifests of a directory without anything -/

def emptyWorld : World where
  readBytes := fun _ => .failed
  psql := fun _ => .failed
  git := fun _ => .failed
  skills := .failed

def firstDraw : Uuid × DateTime := (⟨1, 2, 3, 4, 5⟩, .aware (Wall.inUtc ⟨0, zero_lt_maxWall⟩))

def unknownManifest (directiveText : String) : RunManifest where
  manifestUuid := firstDraw.1
  createdAt := firstDraw.2
  projectId := Stripped.of "unknown"
  phase := Stripped.of "unknown"
  directiveId := Stripped.of "d1"
  inputs :=
    { directiveText := Stripped.of directiveText
      directiveSha256 := Stripped.of (hexdigest directiveText.toList) }
  pipeline := ⟨Stripped.of "unknown", Stripped.of "unknown", Stripped.of ""⟩
  role := roleOf "unknown" "shared/charters/unknown.md" "" []
  runtime := ⟨Stripped.of "unknown", Stripped.of "unknown", none, none⟩
  gitState := ⟨Stripped.of "unknown", Stripped.of "unknown", false, []⟩
  dependencies := {}
  metadata := Dict.of []

theorem captureManifest_emptyWorld (directiveText : String) :
    emptyWorld.captureManifest firstDraw "d1" directiveText none [] =
      some (unknownManifest directiveText) :=
  rfl

def sampleDocument : Value := .obj (unknownManifest "go").members

/-- What `safe_dump` writes for the document. -/
def sampleText : List Char :=
  [("created_at:", " '0001-01-01T00:00:00Z'"),
   ("dependencies:", ""),
   ("  node_packages_lockfile_sha:", " null"),
   ("  python_packages_lockfile_sha:", " null"),
   ("directive_id:", " d1"),
   ("format_version:", " '1'"),
   ("git_state:", ""),
   ("  branch:", " unknown"),
   ("  commit_sha:", " unknown"),
   ("  dirty:", " false"),
   ("  dirty_files:", " []"),
   ("inputs:", ""),
   ("  directive_sha256:", " 4cd0e21a9a0795a14ec9aa5f0e7d1abff0492565770e43eafdf1e3e8afed1f33"),
   ("  directive_text:", " go"),
   ("  intake_template_ref:", " null"),
   ("  org_bundle_id:", " null"),
   ("  org_bundle_sha256:", " null"),
   ("  prd_ref:", " null"),
   ("  prd_sha256:", " null"),
   ("  roadmap_ref:", " null"),
   ("  roadmap_sha256:", " null"),
   ("  trd_ref:", " null"),
   ("  trd_sha256:", " null"),
   ("manifest_uuid:", " 00000001-0002-0003-0004-000000000005"),
   ("metadata:", " \x7b\x7d"),
   ("phase:", " unknown"),
   ("pipeline:", ""),
   ("  pipeline_manifest_path:", " unknown"),
   ("  pipeline_sha256:", " ''"),
   ("  pipeline_version:", " unknown"),
   ("project_id:", " unknown"),
   ("role:", ""),
   ("  role_name:", " unknown"),
   ("  role_prompt_path:", " shared/charters/unknown.md"),
   ("  role_prompt_sha256:", " ''"),
   ("  skills_active:", " []"),
   ("  skills_versions:", " \x7b\x7d"),
   ("runtime:", ""),
   ("  max_tokens:", " null"),
   ("  model_id:", " unknown"),
   ("  model_provider:", " unknown"),
   ("  temperature:", " null")].flatMap
    fun line => line.1.toList ++ (line.2.toList ++ ['\n'])

/-- On the sample as `safe_dump` and `safe_load`, on other values as JSON, which `safe_load` reads
too. -/
def sampleYaml : Yaml where
  safeDump v := if dumps v = dumps sampleDocument then sampleText else dumps v
  safeLoad text := if text = sampleText then some sampleDocument.sortKeys else loadsText text

theorem loadsText_sampleText : loadsText sampleText = none := by
  obtain ⟨rest, hrest⟩ : ∃ rest, sampleText = 'c' :: rest := ⟨_, rfl⟩
  rw [hrest]
  rfl

theorem sampleYaml_documented : sampleYaml.Documented where
  load_dump v hv := by
    by_cases h : dumps v = dumps sampleDocument
    · have hsort : v.sortKeys = sampleDocument.sortKeys := encode_injective h
      simp [sampleYaml, h, hsort]
    · have hne : dumps v ≠ sampleText := by
        intro heq
        have hv' := loadsText_dumps hv
        rw [heq, loadsText_sampleText] at hv'
        cases hv'
      simp [sampleYaml, h, hne, loadsText_dumps hv]
  no_return v := by
    have hsample : '\r' ∉ sampleText := by decide +kernel
    have hdumps : '\r' ∉ dumps v := fun hc => absurd (printable_encode _ _ hc) (by decide)
    unfold sampleYaml
    dsimp only
    split_ifs
    · exact hsample
    · exact hdumps

def noCoercions : Coercions :=
  ⟨fun _ => none, fun _ => none, fun _ => none, fun _ => none, fun _ => none⟩

theorem unknownManifest_portable (directiveText : String) :
    (unknownManifest directiveText).Portable where
  temperature := fun _ hx => absurd hx (Option.not_mem_none _)
  createdAt := rfl

theorem manifest_kept_iff_sample :
    (unknownManifest "go").inputs.directiveSha256.1 = hexdigest "go".toList ∧
      loadManifest sampleYaml noCoercions firstDraw ".yaml"
        (saveManifest sampleYaml ".yaml" (unknownManifest "go")) = some (unknownManifest "go") ∧
      loadManifest sampleYaml noCoercions firstDraw ".json"
        (saveManifest sampleYaml ".json" (unknownManifest "go")) = some (unknownManifest "go") := by
  obtain ⟨hcapture, hload⟩ :=
    manifest_kept_iff sampleYaml sampleYaml_documented noCoercions firstDraw
  have hjson : IsJson (.obj (unknownManifest "go").metadata.members) :=
    .obj _ fun _ hm => absurd hm List.not_mem_nil
  have hportable := unknownManifest_portable "go"
  refine ⟨?_, (hload _ ".yaml" hjson).1.mpr hportable, (hload _ ".json" hjson).1.mpr hportable⟩
  exact (hcapture _ _ _ _ _ _ _ (captureManifest_emptyWorld "go")).mpr (.inl (by decide))

/-- The hash is that of the text before it is stripped. -/
theorem captured_hash_padded : ¬ ∀ (w : World) (now : Uuid × DateTime)
    (directiveId directiveText : String) (rolePromptPath : Option String) (extraMetadata : Members)
    (m : RunManifest),
    w.captureManifest now directiveId directiveText rolePromptPath extraMetadata = some m →
    m.inputs.directiveSha256.1 = hexdigest m.inputs.directiveText.1.toList := by
  intro h
  have heq := h _ _ _ _ _ _ _ (captureManifest_emptyWorld " go")
  have hne : (unknownManifest " go").inputs.directiveSha256.1 ≠
      hexdigest (unknownManifest " go").inputs.directiveText.1.toList := by
    decide +kernel
  exact hne heq

end SpineFormal.Reproducibility
