import Mathlib.Data.Prod.Lex
import SpineFormal.Base.UniqueBy
import SpineFormal.Base.UrlSafe
import SpineFormal.Migration.ImportIntegrity
import SpineFormal.Migration.SchemaSlice
import SpineFormal.Migration.SpineVersion

/-!
# A state exported and imported again

`export_state` stages the slices of all schemas, the bundle, the license, the charters, the vault
paths and the verdict on the audit chain, and puts them into a tarball behind a signed manifest.
Importing that tarball does to a destination what writing the state into it directly would.
-/

namespace SpineFormal.Migration

open Json
set_option autoImplicit false

/-! ## The state -/

/-- A Python `dict`. -/
abbrev Dict (ω : Type) := { row : Row ω // (row.map Prod.fst).Nodup }

structure StateReader (ω : Type) where
  fetchSchemaRows : String → List (Dict ω)
  fetchActiveBundleYaml : List Char
  fetchActiveLicenseEnvelope : Dict ω
  fetchRoleCharters : Dict (List Char)
  fetchVaultRefs : List String
  fetchAuditChainIntegrityReport : Dict ω

structure Signer where
  fingerprint : String
  sign : Bytes → Bytes

structure StagedFile where
  relpath : String
  payload : Bytes

def StagedFile.sha256Hex (f : StagedFile) : String := hexdigestBytes f.payload

def StagedFile.member (f : StagedFile) : Member := ⟨f.relpath, .file f.payload⟩

def charterPath (role : String) : String := "charters/" ++ role ++ ".md"

section
variable {ω : Type} (c : Cells ω)

def stageSlice (reader : StateReader ω) (schema : String) : Option StagedFile :=
  (renderSchemaJsonl c ((reader.fetchSchemaRows schema).map Subtype.val)).map fun payload =>
    ⟨slicePath schema, payload⟩

def stageCharter (charter : String × List Char) : StagedFile :=
  ⟨charterPath charter.1, encodeUtf8 charter.2⟩

def pathsDocument (refs : List String) : Members := [("paths", .arr (refs.map Value.str))]

/-- `_stage_all`; `none` is a `TypeError` of `_canon_default`. -/
def stageAll (reader : StateReader ω) : Option (List StagedFile) := do
  let slices ← schemaSlices.mapM (stageSlice c reader)
  let license ← rowJson c reader.fetchActiveLicenseEnvelope.1
  let integrity ← rowJson c reader.fetchAuditChainIntegrityReport.1
  return slices ++
    [⟨"bundle/org.yaml", encodeUtf8 reader.fetchActiveBundleYaml⟩,
      ⟨"bundle/license.json", canonicalJson (.obj license)⟩] ++
    (sortBy Prod.fst reader.fetchRoleCharters.1).map stageCharter ++
    [⟨"vault_refs.json", canonicalJson (.obj (pathsDocument (sortBy id reader.fetchVaultRefs)))⟩,
      ⟨"audit_chain_integrity.json", canonicalJson (.obj integrity)⟩]

end

/-! ## The manifest -/

structure ExportSchemaSlice where
  schema : String
  rowCount : Nat
  contentSha256 : String
  bytesSize : Nat

structure ExportManifest where
  spineVersion : String
  bundleId : String
  generatedAt : String
  schemas : List ExportSchemaSlice
  auxiliaryFiles : List (String × String)
  subsystemVersions : List Upgrade.SubsystemVersion
  signingKeyFingerprint : String
  sourceHubId : Option String
  notes : String

/-- `_subsystem_to_dict`. -/
def subsystemToDict (s : Upgrade.SubsystemVersion) : Members :=
  [("subsystem", .str s.subsystem), ("schema_kind", .str s.schemaKind),
   ("current_version", .str s.currentVersion), ("min_supported_version", .str s.minSupportedVersion),
   ("owner_module", .str s.ownerModule), ("notes", .str s.notes)]

/-- `_slice_to_dict`. -/
def sliceToDict (s : ExportSchemaSlice) : Members :=
  [("schema", .str s.schema), ("row_count", .int s.rowCount),
   ("content_sha256", .str s.contentSha256), ("bytes_size", .int s.bytesSize)]

/-- `_manifest_to_dict`. -/
def manifestToDict (m : ExportManifest) : Members :=
  [("manifest_version", .int manifestVersion), ("spine_version", .str m.spineVersion),
   ("bundle_id", .str m.bundleId), ("generated_at", .str m.generatedAt),
   ("schemas", .arr (m.schemas.map fun s => .obj (sliceToDict s))),
   ("auxiliary_files", .arr (m.auxiliaryFiles.map fun f => .arr [.str f.1, .str f.2])),
   ("subsystem_versions", .arr (m.subsystemVersions.map fun s => .obj (subsystemToDict s))),
   ("signing_key_fingerprint", .str m.signingKeyFingerprint),
   ("source_hub_id", nullable (m.sourceHubId.map .str)), ("notes", .str m.notes)]

/-- The schema whose slice is at the path. -/
def sliceSchema (relpath : String) : Option String :=
  let cs := relpath.toList
  if "schemas/".toList <+: cs ∧ ".jsonl".toList <:+ cs then
    some (String.ofList ((cs.drop 8).take (cs.length - 14)))
  else none

/-- The entry of the manifest for a slice; the other files have none. -/
def manifestSlice (f : StagedFile) : Option ExportSchemaSlice :=
  (sliceSchema f.relpath).map fun schema =>
    ⟨schema, rowCount f.payload, f.sha256Hex, f.payload.length⟩

def manifestAux (f : StagedFile) : Option (String × String) :=
  if (sliceSchema f.relpath).isSome then none else some (f.relpath, f.sha256Hex)

/-- What an export is called by. -/
structure ExportLabel where
  bundleId : String
  generatedAt : String
  sourceHubId : Option String
  notes : String

/-- `_build_manifest`; `none` is the `ValueError` of `SCHEMA_SLICES.index`. -/
def buildManifest (label : ExportLabel) (staged : List StagedFile) (fingerprint : String) :
    Option ExportManifest :=
  let slices := staged.filterMap manifestSlice
  if slices.all fun s => schemaSlices.contains s.schema then
    some {
      spineVersion := currentSpineVersion
      bundleId := label.bundleId
      generatedAt := label.generatedAt
      schemas := sortBy (fun s => schemaSlices.idxOf s.schema) slices
      auxiliaryFiles := sortBy toLex (staged.filterMap manifestAux)
      subsystemVersions := Upgrade.spineRegistry.subsystems
      signingKeyFingerprint := fingerprint
      sourceHubId := label.sourceHubId
      notes := label.notes }
  else none

/-- `export_state`. -/
def exportState {ω : Type} (c : Cells ω) (signer : Signer) (label : ExportLabel)
    (reader : StateReader ω) : Option Tarball := do
  let staged ← stageAll c reader
  let manifest ← buildManifest label staged signer.fingerprint
  let manifestBytes := canonicalJson (.obj (manifestToDict manifest))
  let signature := signer.sign manifestBytes
  return ⟨"MANIFEST.json", .file manifestBytes⟩ ::
    ⟨"MANIFEST.sig", .file (encodeUtf8 (Base64.encode signature) ++ [10])⟩ ::
    (sortBy StagedFile.relpath staged).map StagedFile.member

/-! ## The state written directly -/

section
variable {ω : Type} (c : Cells ω)

/-- The rows of a schema as JSON, in the order of their keys. -/
def restoredRows (reader : StateReader ω) (schema : String) : List Value :=
  (sortBy (keyOf c) ((reader.fetchSchemaRows schema).map Subtype.val)).map (canonOf c)

def restoredCharters (reader : StateReader ω) : Members :=
  (sortBy (fun charter => charterPath charter.1) reader.fetchRoleCharters.1).map fun charter =>
    (charter.1, .str (String.ofList charter.2))

def restored (reader : StateReader ω) : Auxiliary where
  bundleYaml := reader.fetchActiveBundleYaml
  licenseEnvelope := canonOf c reader.fetchActiveLicenseEnvelope.1
  vaultPaths := (sortBy id reader.fetchVaultRefs).map .str
  charters := restoredCharters reader

/-- The writes of the state, as the reader has it. -/
def stateWrites (reader : StateReader ω) : List WriterCall :=
  (schemaSlices.map fun schema => .writeSchemaRows schema (restoredRows c reader schema)) ++
    (restored c reader).calls

end

/-- The writes one after the other, then the replay of the audit chain. -/
def writeDirectly {σ : Type} (w : DestWriter σ) (calls : List WriterCall) (d : Dest σ) :
    Dest σ × Except ImportFailure Unit :=
  match sendAll w calls d with
  | (d, false) => (d, .error .destWriteFailed)
  | (d, true) => replayAudit w d

/-! ## Reading the tarball -/

theorem getMember_of_mem {tar : Tarball} (hd : (tar.map Member.name).Nodup) {m : Member}
    (hm : m ∈ tar) : getMember tar m.name = some m.body := by
  have hfind : ∀ l : Tarball, (l.map Member.name).Nodup → m ∈ l →
      (l.find? fun n => decide (n.name = m.name)) = some m := by
    intro l
    induction l with
    | nil => exact fun _ h => nomatch h
    | cons n l ih =>
      intro hnodup hmem
      obtain ⟨hfresh, hrest⟩ := List.nodup_cons.mp hnodup
      rw [List.find?_cons]
      rcases List.mem_cons.mp hmem with rfl | hmem
      · simp
      · have hne : n.name ≠ m.name := fun heq => hfresh (heq ▸ List.mem_map_of_mem hmem)
        simp [hne, ih hrest hmem]
  rw [getMember, hfind]
  · rfl
  · rw [List.map_reverse]
    exact List.nodup_reverse.mpr hd
  · exact List.mem_reverse.mpr hm

theorem readTarMember_of_mem {tar : Tarball} (hd : (tar.map Member.name).Nodup) {f : StagedFile}
    (hf : f.member ∈ tar) : readTarMember tar f.relpath = .ok f.payload := by
  have hget : getMember tar f.relpath = some (.file f.payload) := getMember_of_mem hd hf
  rw [readTarMember, hget]

theorem charterRole_charterPath (role : String) : charterRole (charterPath role) = some role := by
  have hpath : (charterPath role).toList = "charters/".toList ++ role.toList ++ ".md".toList := by
    simp [charterPath]
  have hdrop : ("charters/".toList ++ role.toList ++ ".md".toList).drop 9 =
      role.toList ++ ".md".toList := by
    rw [List.append_assoc]
    exact List.drop_left' rfl
  have hlength : ("charters/".toList ++ role.toList ++ ".md".toList).length - 12 =
      role.toList.length := by
    simp
  rw [charterRole, hpath, if_pos ⟨⟨_, (List.append_assoc ..).symm⟩, _, rfl⟩, hdrop, hlength,
    List.take_left', String.ofList_toList]
  rfl

theorem sliceSchema_charterPath (role : String) : sliceSchema (charterPath role) = none := by
  have hpath : (charterPath role).toList = "charters/".toList ++ role.toList ++ ".md".toList := by
    simp [charterPath]
  rw [sliceSchema, hpath]
  exact if_neg fun h => by simp at h

/-! ## What is staged -/

section
variable {ω : Type} {c : Cells ω}

/-- The objects of the columns are written as dictionaries. -/
def Cells.Dicts (c : Cells ω) : Prop := ∀ o v, c.json o = some v → v.Distinct

theorem canonOf_dict (hc : c.Dicts) (d : Dict ω) (hw : Writable c d.1) :
    (canonOf c d.1).Distinct ∧ ∃ ms, canonOf c d.1 = .obj ms := by
  obtain ⟨ms, hms⟩ := Option.isSome_iff_exists.mp hw
  have hcanon : canonOf c d.1 = (Value.obj ms).sortKeys := by
    rw [canonOf, hms]
    rfl
  have hkeys : ms.map Prod.fst = d.1.map Prod.fst := by
    refine map_of_mapM (fun m m' hm => ?_) hms
    obtain ⟨v, -, rfl⟩ := Option.map_eq_some_iff.mp hm
    rfl
  rw [hcanon]
  constructor
  · refine distinct_sortKeys ((distinct_obj ms).mpr ⟨hkeys ▸ d.2, fun m hm => ?_⟩)
    obtain ⟨o, -, ho⟩ := exists_of_mem_mapM hms hm
    obtain ⟨v, hv, rfl⟩ := Option.map_eq_some_iff.mp ho
    exact hc _ v hv
  · obtain ⟨ms', heq, -⟩ := sortKeys_obj ms
    exact ⟨ms', heq⟩

variable (c) in
def stagedSlice (reader : StateReader ω) (schema : String) : StagedFile :=
  ⟨slicePath schema, (restoredRows c reader schema).flatMap lineOf⟩

variable (c) in
/-- The documents beside the slices and the charters. -/
def stagedDocuments (reader : StateReader ω) : List StagedFile :=
  [⟨"bundle/org.yaml", encodeUtf8 reader.fetchActiveBundleYaml⟩,
    ⟨"bundle/license.json",
      encodeUtf8 (compactRaw.render (canonOf c reader.fetchActiveLicenseEnvelope.1))⟩,
    ⟨"vault_refs.json", canonicalJson (.obj (pathsDocument (sortBy id reader.fetchVaultRefs)))⟩,
    ⟨"audit_chain_integrity.json",
      encodeUtf8 (compactRaw.render (canonOf c reader.fetchAuditChainIntegrityReport.1))⟩]

variable (c) in
/-- Everything can be written. -/
structure Exportable (reader : StateReader ω) : Prop where
  rows : ∀ schema ∈ schemaSlices, ∀ row ∈ reader.fetchSchemaRows schema, Writable c row.1
  license : Writable c reader.fetchActiveLicenseEnvelope.1
  integrity : Writable c reader.fetchAuditChainIntegrityReport.1

theorem canonicalJson_of_rowJson {row : Row ω} {ms : Members} (h : rowJson c row = some ms) :
    canonicalJson (.obj ms) = encodeUtf8 (compactRaw.render (canonOf c row)) := by
  rw [canonOf, h]
  rfl

/-- The staged files are the slices, the charters and the documents. -/
theorem stageAll_perm {reader : StateReader ω} {staged : List StagedFile}
    (h : stageAll c reader = some staged) : Exportable c reader ∧
      staged.Perm (schemaSlices.map (stagedSlice c reader) ++
        (reader.fetchRoleCharters.1.map stageCharter ++ stagedDocuments c reader)) := by
  obtain ⟨slices, hslices, h⟩ := Option.bind_eq_some_iff.mp h
  obtain ⟨license, hlicense, h⟩ := Option.bind_eq_some_iff.mp h
  obtain ⟨integrity, hintegrity, h⟩ := Option.bind_eq_some_iff.mp h
  obtain rfl := Option.some.inj h
  have hrows : ∀ schema ∈ schemaSlices, ∀ row ∈ reader.fetchSchemaRows schema, Writable c row.1 := by
    intro schema hschema row hrow
    obtain ⟨f, -, hf⟩ := exists_mem_of_mapM hslices hschema
    obtain ⟨payload, hpayload, -⟩ := Option.map_eq_some_iff.mp hf
    exact writable_of_renderSchemaJsonl hpayload row.1 (List.mem_map_of_mem hrow)
  refine ⟨⟨hrows, ?_, ?_⟩, ?_⟩
  · exact Option.isSome_iff_exists.mpr ⟨license, hlicense⟩
  · exact Option.isSome_iff_exists.mpr ⟨integrity, hintegrity⟩
  · have hstaged : slices = schemaSlices.map (stagedSlice c reader) := by
      have hall : schemaSlices.map (stageSlice c reader) =
          (schemaSlices.map (stagedSlice c reader)).map some := by
        rw [List.map_map]
        refine List.map_congr_left fun schema hschema => ?_
        have hwritable : ∀ row ∈ (reader.fetchSchemaRows schema).map Subtype.val, Writable c row := by
          intro row hrow
          obtain ⟨d, hd, rfl⟩ := List.mem_map.mp hrow
          exact hrows schema hschema d hd
        rw [stageSlice, renderSchemaJsonl_of_writable hwritable, Option.map_some,
          Function.comp_apply, stagedSlice, restoredRows, List.flatMap_map]
      rw [mapM_eq_some_iff, hall] at hslices
      exact ((Option.some_injective _).list_map hslices).symm
    rw [hstaged, canonicalJson_of_rowJson hlicense, canonicalJson_of_rowJson hintegrity,
      List.append_assoc, List.append_assoc]
    apply List.Perm.append_left
    rw [← List.append_assoc]
    refine (List.Perm.append_right _ List.perm_append_comm).trans ?_
    rw [List.append_assoc]
    exact ((sortBy_perm Prod.fst _).map stageCharter).append_right _

end

/-! ## The manifest read back -/

/-- With its keys in order a dictionary has the same keys, each with its value in order. -/
theorem dictGet_sorted {ms : Members} (hd : (ms.map Prod.fst).Nodup) {m : String × Value}
    (hm : m ∈ ms) : dictGet ((sortMembers ms).insertionSort keyLe) m.1 = some m.2.sortKeys := by
  have hperm : ((sortMembers ms).insertionSort keyLe).Perm (ms.map fun m => (m.1, m.2.sortKeys)) := by
    rw [sortMembers_eq_map]
    exact List.perm_insertionSort _ _
  have hkeys : (ms.map fun m => (m.1, m.2.sortKeys)).map Prod.fst = ms.map Prod.fst := by
    rw [List.map_map]
    rfl
  apply dictGet_of_mem (m := (m.1, m.2.sortKeys))
  · exact (hperm.map Prod.fst).nodup_iff.mpr (hkeys ▸ hd)
  · exact hperm.mem_iff.mpr (List.mem_map_of_mem hm)

theorem nodup_manifestToDict (m : ExportManifest) : ((manifestToDict m).map Prod.fst).Nodup := by
  have hkeys : (manifestToDict m).map Prod.fst = ["manifest_version", "spine_version", "bundle_id",
    "generated_at", "schemas", "auxiliary_files", "subsystem_versions", "signing_key_fingerprint",
    "source_hub_id", "notes"] := rfl
  rw [hkeys]
  decide

theorem nodup_sliceToDict (s : ExportSchemaSlice) : ((sliceToDict s).map Prod.fst).Nodup := by
  have hkeys : (sliceToDict s).map Prod.fst =
    ["schema", "row_count", "content_sha256", "bytes_size"] := rfl
  rw [hkeys]
  decide

theorem nodup_subsystemToDict (s : Upgrade.SubsystemVersion) :
    ((subsystemToDict s).map Prod.fst).Nodup := by
  have hkeys : (subsystemToDict s).map Prod.fst = ["subsystem", "schema_kind", "current_version",
    "min_supported_version", "owner_module", "notes"] := rfl
  rw [hkeys]
  decide

theorem manifestToDict_distinct (m : ExportManifest) : (Value.obj (manifestToDict m)).Distinct := by
  have hslice (s : ExportSchemaSlice) : (Value.obj (sliceToDict s)).Distinct :=
    (distinct_obj _).mpr ⟨nodup_sliceToDict s, by simp [sliceToDict, Value.Distinct]⟩
  have hsubsystem (s : Upgrade.SubsystemVersion) : (Value.obj (subsystemToDict s)).Distinct :=
    (distinct_obj _).mpr ⟨nodup_subsystemToDict s, by simp [subsystemToDict, Value.Distinct]⟩
  have hhub : (nullable (m.sourceHubId.map Value.str)).Distinct := by
    cases m.sourceHubId <;> simp [nullable, Value.Distinct]
  refine (distinct_obj _).mpr ⟨nodup_manifestToDict m, ?_⟩
  simp only [manifestToDict, List.forall_mem_cons, distinct_arr, List.forall_mem_map]
  refine ⟨trivial, trivial, trivial, trivial, fun s _ => hslice s, ?_, fun s _ => hsubsystem s,
    trivial, hhub, trivial, fun _ h => nomatch h⟩
  exact fun f _ => ⟨trivial, trivial, fun _ h => nomatch h⟩

theorem loadsText_canonical {v : Value} (h : v.Distinct) :
    (decodeUtf8 (canonicalJson v)).bind loadsText = some v.sortKeys := by
  rw [canonicalJson, decodeUtf8_encodeUtf8, Option.bind_some, loadsText, compactRaw_readable.loads,
    Option.map_some, dicts_of_distinct (distinct_sortKeys h)]

theorem loadsBytes_object {ms : Members} (h : (Value.obj ms).Distinct) :
    loadsBytes (encodeUtf8 (compactRaw.render (.obj ms))) = some (.obj ms) := by
  have hzero : '\x00' ∉ compactRaw.render (.obj ms) := by
    intro hmem
    have hge := render_ge (.obj ms) '\x00' hmem
    exact absurd hge (by decide)
  have hread : loadsText (compactRaw.render (.obj ms)) = some (.obj ms) := by
    rw [loadsText, compactRaw_readable.loads, Option.map_some, dicts_of_distinct h]
  rw [Format.render] at hzero hread ⊢
  rw [loadsBytes_brace fun hmem => hzero (List.mem_cons_of_mem _ hmem), hread]

theorem stripBytes_line {bs : Bytes} (h : ∀ b ∈ bs, asciiSpace b = false) :
    stripBytes (bs ++ [10]) = bs := by
  have hback (cs : Bytes) (hcs : ∀ b ∈ cs, asciiSpace b = false) : cs.dropWhile asciiSpace = cs := by
    cases cs with
    | nil => rfl
    | cons b cs => exact List.dropWhile_cons_of_neg (by simp [hcs b List.mem_cons_self])
  have hfront : (bs ++ [10]).dropWhile asciiSpace = if bs = [] then [] else bs ++ [10] := by
    cases bs with
    | nil => rfl
    | cons b bs =>
      rw [if_neg (List.cons_ne_nil b bs), List.cons_append,
        List.dropWhile_cons_of_neg (by simp [h b List.mem_cons_self])]
  rw [stripBytes, hfront]
  split
  · rename_i hnil
    rw [hnil]
    rfl
  · rw [List.reverse_append, List.reverse_singleton, List.singleton_append,
      List.dropWhile_cons_of_pos (by decide), hback _ fun b hb => h b (List.mem_reverse.mp hb),
      List.reverse_reverse]

/-- The signature's line is read back as the signature. -/
theorem b64decode_signature (signature : Bytes) :
    b64decode (stripBytes (encodeUtf8 (Base64.encode signature) ++ [10])) = some signature := by
  rw [stripBytes_line, Base64.b64decode_encode]
  intro b hb
  obtain ⟨ch, hch, hb⟩ := List.mem_flatMap.mp hb
  have hdigit : ∀ n < 64, ∀ b ∈ String.utf8EncodeChar (Base64.digit n), asciiSpace b = false := by
    decide +kernel
  have hpad : ∀ b ∈ String.utf8EncodeChar '=', asciiSpace b = false := by decide +kernel
  rcases Base64.mem_encode hch with ⟨n, hn, rfl⟩ | rfl
  · exact hdigit n hn b hb
  · exact hpad b hb

/-! ## The exported tarball -/

section
variable {ω : Type} {c : Cells ω} {reader : StateReader ω}

variable (c reader) in
/-- Everything that is staged. -/
def stagedFiles : List StagedFile :=
  schemaSlices.map (stagedSlice c reader) ++
    (reader.fetchRoleCharters.1.map stageCharter ++ stagedDocuments c reader)

/-- The names that are no charter's. -/
def fixedNames : List String :=
  schemaSlices.map slicePath ++
    ["bundle/org.yaml", "bundle/license.json", "vault_refs.json", "audit_chain_integrity.json"]

theorem relpath_stagedFiles : ((stagedFiles c reader).map StagedFile.relpath).Perm
    (fixedNames ++ reader.fetchRoleCharters.1.map fun charter => charterPath charter.1) := by
  have hslices : (schemaSlices.map (stagedSlice c reader)).map StagedFile.relpath =
      schemaSlices.map slicePath := by
    rw [List.map_map]
    rfl
  have hcharters : (reader.fetchRoleCharters.1.map stageCharter).map StagedFile.relpath =
      reader.fetchRoleCharters.1.map fun charter => charterPath charter.1 := by
    rw [List.map_map]
    rfl
  rw [stagedFiles, List.map_append, List.map_append, hslices, hcharters, fixedNames,
    List.append_assoc]
  exact List.perm_append_comm.append_left _

theorem charterRole_fixedNames :
    ∀ name ∈ "MANIFEST.json" :: "MANIFEST.sig" :: fixedNames, charterRole name = none := by
  decide

/-- No two members of the tarball have one name. -/
theorem nodup_exported {staged : List StagedFile} (hstaged : staged.Perm (stagedFiles c reader)) :
    ("MANIFEST.json" :: "MANIFEST.sig" :: staged.map StagedFile.relpath).Nodup := by
  have hperm := (((hstaged.map StagedFile.relpath).trans relpath_stagedFiles).cons
    "MANIFEST.sig").cons "MANIFEST.json"
  rw [hperm.nodup_iff, ← List.cons_append, ← List.cons_append, List.nodup_append]
  refine ⟨by decide, ?_, ?_⟩
  · have hroles := reader.fetchRoleCharters.2
    have hinj : Function.Injective charterPath := by
      intro r r' heq
      have hrole := congrArg charterRole heq
      rw [charterRole_charterPath, charterRole_charterPath] at hrole
      exact Option.some.inj hrole
    have hpaths := hroles.map hinj
    rw [List.map_map] at hpaths
    exact hpaths
  · rintro name hname path hpath rfl
    obtain ⟨charter, -, heq⟩ := List.mem_map.mp hpath
    have hnone := charterRole_fixedNames name hname
    rw [← heq, charterRole_charterPath] at hnone
    cases hnone

variable (c reader) in
/-- The manifest's entry for a schema. -/
def sliceOf (schema : String) : ExportSchemaSlice :=
  let f := stagedSlice c reader schema
  ⟨schema, rowCount f.payload, f.sha256Hex, f.payload.length⟩

theorem mem_manifestSlices {staged : List StagedFile} (hstaged : staged.Perm (stagedFiles c reader))
    {s : ExportSchemaSlice} :
    s ∈ staged.filterMap manifestSlice ↔ ∃ schema ∈ schemaSlices, sliceOf c reader schema = s := by
  have hslice : ∀ schema ∈ schemaSlices, sliceSchema (slicePath schema) = some schema := by decide
  have hentry : ∀ schema ∈ schemaSlices,
      manifestSlice (stagedSlice c reader schema) = some (sliceOf c reader schema) := by
    intro schema hschema
    have hpath : sliceSchema (stagedSlice c reader schema).relpath = some schema :=
      hslice schema hschema
    rw [manifestSlice, hpath]
    rfl
  have hother : ∀ name ∈ ["bundle/org.yaml", "bundle/license.json", "vault_refs.json",
      "audit_chain_integrity.json"], sliceSchema name = none := by
    decide
  have hnone : ∀ f ∈ reader.fetchRoleCharters.1.map stageCharter ++ stagedDocuments c reader,
      sliceSchema f.relpath = none := by
    intro f hf
    rcases List.mem_append.mp hf with hf | hf
    · obtain ⟨charter, -, rfl⟩ := List.mem_map.mp hf
      exact sliceSchema_charterPath charter.1
    · exact hother f.relpath (List.mem_map_of_mem (f := StagedFile.relpath) hf)
  rw [List.mem_filterMap]
  constructor
  · rintro ⟨f, hf, heq⟩
    rcases List.mem_append.mp (hstaged.mem_iff.mp hf) with hf | hf
    · obtain ⟨schema, hschema, rfl⟩ := List.mem_map.mp hf
      rw [hentry schema hschema] at heq
      exact ⟨schema, hschema, Option.some.inj heq⟩
    · rw [manifestSlice, hnone f hf] at heq
      cases heq
  · rintro ⟨schema, hschema, rfl⟩
    refine ⟨stagedSlice c reader schema, hstaged.mem_iff.mpr ?_, hentry schema hschema⟩
    exact List.mem_append_left _ (List.mem_map_of_mem hschema)

/-- What is staged has a manifest, with an entry for every schema and no other. -/
theorem buildManifest_spec (label : ExportLabel) {staged : List StagedFile} (fingerprint : String)
    (hstaged : staged.Perm (stagedFiles c reader)) :
    ∃ m, buildManifest label staged fingerprint = some m ∧ m.spineVersion = currentSpineVersion ∧
      m.signingKeyFingerprint = fingerprint ∧
        ∀ s, s ∈ m.schemas ↔ ∃ schema ∈ schemaSlices, sliceOf c reader schema = s := by
  have hall : ((staged.filterMap manifestSlice).all fun s =>
      schemaSlices.contains s.schema) = true := by
    rw [List.all_eq_true]
    intro s hs
    obtain ⟨schema, hschema, rfl⟩ := (mem_manifestSlices hstaged).mp hs
    exact List.contains_iff_mem.mpr hschema
  refine ⟨_, if_pos hall, rfl, rfl, fun s => ?_⟩
  exact (mem_sortBy _).trans (mem_manifestSlices hstaged)

/-- The charters of the tarball, in the order of their members. -/
theorem charters_sortBy {staged : List StagedFile} (hstaged : staged.Perm (stagedFiles c reader)) :
    (sortBy StagedFile.relpath staged).filter (fun f => (charterRole f.relpath).isSome) =
      (sortBy (fun charter => charterPath charter.1) reader.fetchRoleCharters.1).map stageCharter := by
  have hfixed : ∀ f ∈ schemaSlices.map (stagedSlice c reader) ++ stagedDocuments c reader,
      charterRole f.relpath = none := by
    intro f hf
    have hname : f.relpath ∈ fixedNames := by
      have hnames : (schemaSlices.map (stagedSlice c reader) ++ stagedDocuments c reader).map
          StagedFile.relpath = fixedNames := rfl
      rw [← hnames]
      exact List.mem_map_of_mem hf
    exact charterRole_fixedNames _ (List.mem_cons_of_mem _ (List.mem_cons_of_mem _ hname))
  have hnone (l : List StagedFile) (hl : ∀ f ∈ l, charterRole f.relpath = none) :
      l.filter (fun f => (charterRole f.relpath).isSome) = [] := by
    rw [List.filter_eq_nil_iff]
    intro f hf
    simp [hl f hf]
  have hall : (reader.fetchRoleCharters.1.map stageCharter).filter
      (fun f => (charterRole f.relpath).isSome) = reader.fetchRoleCharters.1.map stageCharter := by
    rw [List.filter_eq_self]
    intro f hf
    obtain ⟨charter, -, rfl⟩ := List.mem_map.mp hf
    rw [stageCharter, charterRole_charterPath]
    rfl
  have hfilter : (stagedFiles c reader).filter (fun f => (charterRole f.relpath).isSome) =
      reader.fetchRoleCharters.1.map stageCharter := by
    rw [stagedFiles, List.filter_append, List.filter_append, hall,
      hnone _ fun f hf => hfixed f (List.mem_append_left _ hf),
      hnone _ fun f hf => hfixed f (List.mem_append_right _ hf), List.nil_append, List.append_nil]
  have hperm : (staged.filter fun f => (charterRole f.relpath).isSome).Perm
      (reader.fetchRoleCharters.1.map stageCharter) := hfilter ▸ hstaged.filter _
  rw [filter_sortBy, sortBy_congr hperm, sortBy_map]
  · rfl
  · intro f hf g hg hfg
    obtain ⟨a, ha, rfl⟩ := List.mem_map.mp (hperm.mem_iff.mp hf)
    obtain ⟨b, hb, rfl⟩ := List.mem_map.mp (hperm.mem_iff.mp hg)
    have hrole := congrArg charterRole hfg
    rw [stageCharter, stageCharter, charterRole_charterPath, charterRole_charterPath] at hrole
    rw [List.inj_on_of_nodup_map reader.fetchRoleCharters.2 ha hb (Option.some.inj hrole)]

theorem readCharters_members {files : List StagedFile} {charters : List (String × List Char)}
    {found : Members} (hfiles : files.filter (fun f => (charterRole f.relpath).isSome) =
      charters.map stageCharter)
    (hd : (found.map Prod.fst ++ charters.map Prod.fst).Nodup) :
    readCharters (files.map StagedFile.member) found =
      .ok (found ++ charters.map fun charter => (charter.1, .str (String.ofList charter.2))) := by
  induction files generalizing charters found with
  | nil =>
    obtain rfl := List.map_eq_nil_iff.mp hfiles.symm
    rw [List.map_nil, readCharters, List.map_nil, List.append_nil]
  | cons f files ih =>
    rw [List.map_cons, StagedFile.member]
    cases hrole : charterRole f.relpath with
    | none =>
      rw [List.filter_cons_of_neg (by simp [hrole])] at hfiles
      have hskip : readCharters (⟨f.relpath, .file f.payload⟩ :: files.map StagedFile.member) found =
          readCharters (files.map StagedFile.member) found := by
        simp [readCharters, hrole]
      rw [hskip]
      exact ih hfiles hd
    | some role =>
      rw [List.filter_cons_of_pos (by simp [hrole])] at hfiles
      cases charters with
      | nil => cases hfiles
      | cons charter charters =>
        obtain ⟨rfl, hrest⟩ := List.cons.inj hfiles
        rw [stageCharter, charterRole_charterPath] at hrole
        obtain rfl := Option.some.inj hrole
        have hfresh : charter.1 ∉ found.map Prod.fst := by
          intro hmem
          exact (List.nodup_append.mp hd).2.2 _ hmem _ List.mem_cons_self rfl
        have hread : readCharters
            (⟨charterPath charter.1, .file (encodeUtf8 charter.2)⟩ :: files.map StagedFile.member)
              found = readCharters (files.map StagedFile.member)
                (found ++ [(charter.1, .str (String.ofList charter.2))]) := by
          simp [readCharters, charterRole_charterPath, orUncaught, dictSet_of_notMem hfresh, bind,
            Except.bind]
        rw [stageCharter, hread, ih hrest, List.append_assoc, List.map_cons, List.singleton_append]
        simpa using hd

variable (c reader) in
/-- What an exported tarball holds. -/
structure Holds (signer : Signer) (tar : Tarball) (m : ExportManifest) : Prop where
  exportable : Exportable c reader
  spineVersion : m.spineVersion = currentSpineVersion
  fingerprint : m.signingKeyFingerprint = signer.fingerprint
  schemas : ∀ s, s ∈ m.schemas ↔ ∃ schema ∈ schemaSlices, sliceOf c reader schema = s
  manifest : readTarMember tar "MANIFEST.json" = .ok (canonicalJson (.obj (manifestToDict m)))
  signature : readTarMember tar "MANIFEST.sig" = .ok (encodeUtf8
    (Base64.encode (signer.sign (canonicalJson (.obj (manifestToDict m))))) ++ [10])
  files : ∀ f ∈ stagedFiles c reader, readTarMember tar f.relpath = .ok f.payload
  charters : readCharters tar [] = .ok (restoredCharters reader)

theorem exportState_holds {signer : Signer} {label : ExportLabel} {tar : Tarball}
    (h : exportState c signer label reader = some tar) : ∃ m, Holds c reader signer tar m := by
  obtain ⟨staged, hstage, h⟩ := Option.bind_eq_some_iff.mp h
  obtain ⟨hexportable, hstaged⟩ := stageAll_perm hstage
  obtain ⟨m, hm, hversion, hfingerprint, hschemas⟩ :=
    buildManifest_spec label signer.fingerprint hstaged
  rw [hm] at h
  obtain rfl := Option.some.inj h
  have hsorted : (sortBy StagedFile.relpath staged).Perm (stagedFiles c reader) :=
    (sortBy_perm _ _).trans hstaged
  have hnames : ((⟨"MANIFEST.json", .file (canonicalJson (.obj (manifestToDict m)))⟩ ::
      ⟨"MANIFEST.sig", .file (encodeUtf8
        (Base64.encode (signer.sign (canonicalJson (.obj (manifestToDict m))))) ++ [10])⟩ ::
      (sortBy StagedFile.relpath staged).map StagedFile.member : Tarball).map Member.name).Nodup := by
    have hnodup := nodup_exported hsorted
    rw [List.map_cons, List.map_cons, List.map_map]
    exact hnodup
  refine ⟨m, hexportable, hversion, hfingerprint, hschemas, ?_, ?_, ?_, ?_⟩
  · exact readTarMember_of_mem (f := ⟨"MANIFEST.json", _⟩) hnames List.mem_cons_self
  · exact readTarMember_of_mem (f := ⟨"MANIFEST.sig", _⟩) hnames
      (List.mem_cons_of_mem _ List.mem_cons_self)
  · intro f hf
    apply readTarMember_of_mem hnames
    apply List.mem_cons_of_mem
    apply List.mem_cons_of_mem
    exact List.mem_map_of_mem (hsorted.mem_iff.mpr hf)
  · have hroles : (([] : Members).map Prod.fst ++ (sortBy (fun charter => charterPath charter.1)
        reader.fetchRoleCharters.1).map Prod.fst).Nodup :=
      ((sortBy_perm _ _).map Prod.fst).nodup_iff.mpr reader.fetchRoleCharters.2
    have hjson : charterRole "MANIFEST.json" = none :=
      charterRole_fixedNames _ List.mem_cons_self
    have hsig : charterRole "MANIFEST.sig" = none :=
      charterRole_fixedNames _ (List.mem_cons_of_mem _ List.mem_cons_self)
    rw [readCharters, hjson, readCharters, hsig]
    exact readCharters_members (charters_sortBy hstaged) hroles

/-! ## Importing it -/

variable {signer : Signer} {tar : Tarball} {m : ExportManifest} {verify : Verifier}

/-- An entry of the manifest as it is read back. -/
def readSlice (s : ExportSchemaSlice) : Members := (sortMembers (sliceToDict s)).insertionSort keyLe

theorem sliceEntry_readSlice (s : ExportSchemaSlice) :
    sliceEntry (Value.obj (sliceToDict s)).sortKeys = some (.str s.schema, readSlice s) := by
  have hkey : dictGet (readSlice s) "schema" = some (Value.str s.schema).sortKeys :=
    dictGet_sorted (m := ("schema", .str s.schema)) (nodup_sliceToDict s) List.mem_cons_self
  simp only [Value.sortKeys] at hkey
  rw [Value.sortKeys, sliceEntry, ← readSlice, hkey]
  rfl

theorem Holds.verifiedSlices (h : Holds c reader signer tar m)
    (hverify : ∀ message, verify message (signer.sign message) (.str signer.fingerprint) = none) :
    verifiedSlices verify tar = .ok (m.schemas.map fun s => (.str s.schema, readSlice s)) := by
  have hget (k : String) (v : Value) (hkv : (k, v) ∈ manifestToDict m) :
      dictGet ((sortMembers (manifestToDict m)).insertionSort keyLe) k = some v.sortKeys :=
    dictGet_sorted (m := (k, v)) (nodup_manifestToDict m) hkv
  have hmanifest : readManifest verify tar =
      .ok ((sortMembers (manifestToDict m)).insertionSort keyLe) := by
    have hversion := hget "manifest_version" (.int manifestVersion) (by simp [manifestToDict])
    have hkey := hget "signing_key_fingerprint" (.str m.signingKeyFingerprint)
      (by simp [manifestToDict])
    have hspine := hget "spine_version" (.str m.spineVersion) (by simp [manifestToDict])
    have hload := loadsText_canonical (manifestToDict_distinct m)
    rw [h.fingerprint] at hkey
    rw [h.spineVersion] at hspine
    rw [Value.sortKeys] at hload
    simp only [Value.sortKeys] at hversion hkey hspine
    have hcheck : checkVersion ((sortMembers (manifestToDict m)).insertionSort keyLe) = .ok () := by
      rw [checkVersion, hspine]
      decide
    simp only [readManifest, h.manifest, h.signature, bind, Except.bind, hload,
      b64decode_signature, hversion, hkey, Option.getD_some, pyInt, orUncaught, hverify, hcheck]
    rfl
  have hslices : slicesByName ((sortMembers (manifestToDict m)).insertionSort keyLe) =
      some (m.schemas.map fun s => (.str s.schema, readSlice s)) := by
    have hschemas := hget "schemas" (.arr (m.schemas.map fun s => .obj (sliceToDict s)))
      (by simp [manifestToDict])
    rw [sortKeys_arr, List.map_map] at hschemas
    rw [slicesByName, hschemas]
    dsimp only [Option.getD_some]
    rw [mapM_eq_some_iff, List.map_map, List.map_map]
    exact List.map_congr_left fun s _ => sliceEntry_readSlice s
  rw [Migration.verifiedSlices, hmanifest]
  dsimp only [Except.bind]
  rw [hslices]
  rfl

theorem sliceInfo_readSlice {entries : List ExportSchemaSlice} {s : ExportSchemaSlice}
    (hs : s ∈ entries) : ∃ t ∈ entries, t.schema = s.schema ∧
      sliceInfo (entries.map fun s => (.str s.schema, readSlice s)) s.schema =
        some (readSlice t) := by
  have hsome : ((entries.map fun s => ((.str s.schema, readSlice s) : Value × Members)).reverse.find?
      fun e => isKey s.schema e.1).isSome = true := by
    rw [List.find?_isSome]
    refine ⟨(.str s.schema, readSlice s), ?_, by simp [isKey]⟩
    exact List.mem_reverse.mpr (List.mem_map_of_mem hs)
  obtain ⟨e, he⟩ := Option.isSome_iff_exists.mp hsome
  obtain ⟨t, ht, rfl⟩ := List.mem_map.mp (List.mem_reverse.mp (List.mem_of_find?_eq_some he))
  refine ⟨t, ht, by simpa [isKey] using List.find?_some he, ?_⟩
  rw [sliceInfo, he]
  rfl

theorem Holds.checkSlice (h : Holds c reader signer tar m) (hc : c.Dicts) {schema : String}
    (hschema : schema ∈ schemaSlices) :
    checkSlice tar (m.schemas.map fun s => (.str s.schema, readSlice s)) schema =
      .ok (restoredRows c reader schema) := by
  obtain ⟨t, ht, hname, hinfo⟩ := sliceInfo_readSlice ((h.schemas _).mpr ⟨schema, hschema, rfl⟩)
  obtain ⟨schema', -, rfl⟩ := (h.schemas t).mp ht
  obtain rfl : schema' = schema := hname
  have hread : readTarMember tar (slicePath schema') = .ok (stagedSlice c reader schema').payload :=
    h.files _ (List.mem_append_left _ (List.mem_map_of_mem hschema))
  have hdigest : dictGet (readSlice (sliceOf c reader schema')) "content_sha256" =
      some (.str (stagedSlice c reader schema').sha256Hex) := by
    have hget := dictGet_sorted
      (m := ("content_sha256", .str (stagedSlice c reader schema').sha256Hex))
      (nodup_sliceToDict (sliceOf c reader schema')) (by simp [sliceToDict, sliceOf])
    simp only [Value.sortKeys] at hget
    exact hget
  have hrows : parseJsonl (stagedSlice c reader schema').payload =
      some (restoredRows c reader schema') := by
    have hparse := parseJsonl_lines (v := id) (l := restoredRows c reader schema') (by
      intro v hv
      obtain ⟨row, hrow, rfl⟩ := List.mem_map.mp hv
      obtain ⟨d, hd, rfl⟩ := List.mem_map.mp ((mem_sortBy _).mp hrow)
      exact canonOf_dict hc d (h.exportable.rows schema' hschema d hd))
    rw [List.map_id] at hparse
    exact hparse
  have hinfo' : sliceInfo (m.schemas.map fun s => (.str s.schema, readSlice s)) schema' =
      some (readSlice (sliceOf c reader schema')) := hinfo
  simp only [Migration.checkSlice, hinfo', hread, bind, Except.bind, hdigest]
  rw [StagedFile.sha256Hex, if_pos rfl, hrows]
  rfl

theorem Holds.readAuxiliary (h : Holds c reader signer tar m) (hc : c.Dicts) :
    readAuxiliary tar = .ok (restored c reader) := by
  have hread (f : StagedFile) (hf : f ∈ stagedDocuments c reader) :
      readTarMember tar f.relpath = .ok f.payload :=
    h.files f (List.mem_append_right _ (List.mem_append_right _ hf))
  have hyaml := hread _ List.mem_cons_self
  have hlicense := hread _ (List.mem_cons_of_mem _ List.mem_cons_self)
  have hrefs := hread _ (List.mem_cons_of_mem _ (List.mem_cons_of_mem _ List.mem_cons_self))
  obtain ⟨hdistinct, ms, hms⟩ := canonOf_dict hc reader.fetchActiveLicenseEnvelope h.exportable.license
  have hpaths : loadsBytes (canonicalJson (.obj (pathsDocument (sortBy id reader.fetchVaultRefs)))) =
      some (.obj (pathsDocument (sortBy id reader.fetchVaultRefs))) := by
    have hsorted : (Value.obj (pathsDocument (sortBy id reader.fetchVaultRefs))).sortKeys =
        .obj (pathsDocument (sortBy id reader.fetchVaultRefs)) := by
      rw [pathsDocument, Value.sortKeys, sortMembers_eq_map, List.map_singleton, sortKeys_arr,
        List.map_map]
      have hstr : Value.sortKeys ∘ Value.str = Value.str := funext fun s => by simp [Value.sortKeys]
      rw [hstr]
      rfl
    rw [canonicalJson, hsorted]
    apply loadsBytes_object
    rw [distinct_obj]
    refine ⟨by simp [pathsDocument], ?_⟩
    simp only [pathsDocument, List.forall_mem_singleton, distinct_arr, List.forall_mem_map]
    exact fun _ _ => trivial
  have hvault : readVaultPaths (.obj (pathsDocument (sortBy id reader.fetchVaultRefs))) =
      some ((sortBy id reader.fetchVaultRefs).map Value.str) := rfl
  rw [hms] at hlicense hdistinct
  dsimp only at hyaml hlicense hrefs
  simp only [Migration.readAuxiliary, hyaml, hlicense, hrefs, h.charters, bind, Except.bind,
    decodeUtf8_encodeUtf8, loadsBytes_object hdistinct, hpaths, hvault, Option.bind_some, orUncaught]
  rw [restored, hms]
  rfl

end

section
variable {σ : Type} {w : DestWriter σ}

theorem sendAll_append (cs ds : List WriterCall) (d : Dest σ) :
    sendAll w (cs ++ ds) d =
      if (sendAll w cs d).2 then sendAll w ds (sendAll w cs d).1 else sendAll w cs d := by
  induction cs generalizing d with
  | nil => rfl
  | cons a cs ih =>
    rw [List.cons_append, sendAll, sendAll]
    split
    · rfl
    · exact ih _

/-- Slices that agree with the manifest are written one after the other. -/
theorem importSlices_checked {tar : Tarball} {slices : List (Value × Members)}
    {rows : String → List Value} {schemas : List String}
    (h : ∀ schema ∈ schemas, checkSlice tar slices schema = .ok (rows schema)) (d : Dest σ) :
    ∃ counts, importSlices w false tar slices schemas d =
      ((sendAll w (schemas.map fun schema => .writeSchemaRows schema (rows schema)) d).1,
        if (sendAll w (schemas.map fun schema => .writeSchemaRows schema (rows schema)) d).2
        then .ok counts else .error .destWriteFailed) := by
  induction schemas generalizing d with
  | nil => exact ⟨[], rfl⟩
  | cons schema rest ih =>
    obtain ⟨hrows, hrest⟩ := List.forall_mem_cons.mp h
    rw [importSlices, hrows, List.map_cons, sendAll]
    dsimp only
    rw [if_neg Bool.false_ne_true]
    cases hsend : d.send w (.writeSchemaRows schema (rows schema)) with
    | mk d' reply =>
      cases reply with
      | raised => exact ⟨[], rfl⟩
      | returned written =>
        obtain ⟨counts, hcounts⟩ := ih hrest d'
        refine ⟨(schema, written) :: counts, ?_⟩
        dsimp only
        rw [hcounts]
        split
        · rfl
        · rfl

theorem importSlices_counts {tar : Tarball} {slices : List (Value × Members)}
    {rows : String → List Value} {schemas : List String}
    (h : ∀ schema ∈ schemas, checkSlice tar slices schema = .ok (rows schema)) (d : Dest σ) :
    importSlices w true tar slices schemas d =
      (d, .ok (schemas.map fun schema => (schema, .int (rows schema).length))) := by
  induction schemas with
  | nil => rfl
  | cons schema rest ih =>
    obtain ⟨hrows, hrest⟩ := List.forall_mem_cons.mp h
    rw [importSlices, hrows]
    dsimp only
    rw [if_pos rfl, ih hrest]
    rfl

/-- Importing an exported tarball does to any destination what writing the state into it directly
does: every slice with its rows in the order of their keys, the bundle, the license, the charters and
the vault paths, then the replay. A dry run writes nothing and counts the rows. -/
theorem import_export {ω : Type} {c : Cells ω} (hc : c.Dicts) {signer : Signer} {verify : Verifier}
    (hverify : ∀ message, verify message (signer.sign message) (.str signer.fingerprint) = none)
    {label : ExportLabel} {reader : StateReader ω} {tar : Tarball}
    (h : exportState c signer label reader = some tar) (w : DestWriter σ) (d : Dest σ) :
    ((importState verify w false tar d).1, (importState verify w false tar d).2.map fun _ => ()) =
        writeDirectly w (stateWrites c reader) d ∧
      importState verify w true tar d =
        (d, .ok ⟨schemaSlices.map fun schema => (schema, .int (reader.fetchSchemaRows schema).length),
          reader.fetchRoleCharters.1.length, reader.fetchVaultRefs.length, none, true⟩) := by
  obtain ⟨m, hm⟩ := exportState_holds h
  have hslices := hm.verifiedSlices hverify
  have haux := hm.readAuxiliary hc
  have hchecked : ∀ schema ∈ schemaSlices, checkSlice tar _ schema = .ok (restoredRows c reader schema) :=
    fun _ hschema => hm.checkSlice hc hschema
  constructor
  · obtain ⟨counts, hcounts⟩ := importSlices_checked (w := w) hchecked d
    rw [importState, hslices]
    dsimp only
    rw [hcounts, writeDirectly, stateWrites, sendAll_append]
    generalize sendAll w (schemaSlices.map fun schema =>
      .writeSchemaRows schema (restoredRows c reader schema)) d = sent
    obtain ⟨d', ok⟩ := sent
    cases ok with
    | false => rfl
    | true =>
      dsimp only
      rw [if_pos rfl, if_pos rfl, haux]
      dsimp only
      rw [if_neg Bool.false_ne_true, finishImport]
      cases hsend : sendAll w (restored c reader).calls d' with
      | mk d'' ok =>
        cases ok with
        | false => rfl
        | true =>
          dsimp only
          cases hreplay : replayAudit w d'' with
          | mk d₃ reply => cases reply <;> rfl
  · rw [importState, hslices]
    dsimp only
    rw [importSlices_counts hchecked, haux]
    dsimp only
    rw [if_pos rfl]
    have hrows (schema : String) : (restoredRows c reader schema).length =
        (reader.fetchSchemaRows schema).length := by
      rw [restoredRows, List.length_map, (sortBy_perm _ _).length_eq, List.length_map]
    have hcharters : (restored c reader).charters.length = reader.fetchRoleCharters.1.length := by
      rw [restored, restoredCharters, List.length_map, (sortBy_perm _ _).length_eq]
    have hrefs : (restored c reader).vaultPaths.length = reader.fetchVaultRefs.length := by
      rw [restored, List.length_map, (sortBy_perm _ _).length_eq]
    rw [hcharters, hrefs]
    simp only [hrows]

end

/-- Text columns. -/
def textCells : Cells String := ⟨id, fun s => some (.str s)⟩

theorem textCells_dicts : textCells.Dicts := by
  rintro o v hv
  obtain rfl := Option.some.inj hv
  trivial

def digestSigner : Signer := ⟨"ab", sha256⟩

def digestVerifier : Verifier := fun message signature _ =>
  if signature = sha256 message then none else some .signatureInvalid

theorem nodup_hubColumns : ["id", "base_url"].Nodup := by decide

theorem nodup_roles : ["qa", "architect"].Nodup := by decide

/-- Two hubs that came in the wrong order, and two charters. -/
def twoHubs : StateReader String where
  fetchSchemaRows schema :=
    if schema = "spine_hub" then
      [⟨[("id", "h2"), ("base_url", "b")], nodup_hubColumns⟩,
        ⟨[("id", "h1"), ("base_url", "a")], nodup_hubColumns⟩]
    else []
  fetchActiveBundleYaml := "tier: enterprise".toList
  fetchActiveLicenseEnvelope := ⟨[("license_id", "l1")], List.nodup_singleton _⟩
  fetchRoleCharters := ⟨[("qa", "# QA".toList), ("architect", "# Architect".toList)], nodup_roles⟩
  fetchVaultRefs := ["hub/token", "license/vendor_pubkey"]
  fetchAuditChainIntegrityReport := ⟨[("chain_tip_hash", "00")], List.nodup_singleton _⟩

theorem import_export_twoHubs : ∃ tar,
    exportState textCells digestSigner ⟨"b1", "2026-01-01T00:00:00+00:00", none, ""⟩ twoHubs =
        some tar ∧
      (((importState digestVerifier recorder false tar ⟨[], []⟩).1,
          (importState digestVerifier recorder false tar ⟨[], []⟩).2.map fun _ => ()) =
        writeDirectly recorder (stateWrites textCells twoHubs) ⟨[], []⟩ ∧
      importState digestVerifier recorder true tar ⟨[], []⟩ =
        (⟨[], []⟩, .ok ⟨schemaSlices.map fun schema =>
          (schema, .int (twoHubs.fetchSchemaRows schema).length), 2, 2, none, true⟩)) := by
  have hsome : (exportState textCells digestSigner ⟨"b1", "2026-01-01T00:00:00+00:00", none, ""⟩
      twoHubs).isSome = true := by decide +kernel
  obtain ⟨tar, htar⟩ := Option.isSome_iff_exists.mp hsome
  exact ⟨tar, htar, import_export textCells_dicts (fun _ => if_pos rfl) htar recorder ⟨[], []⟩⟩

end SpineFormal.Migration
