import Mathlib.Algebra.Order.BigOperators.Group.List
import SpineFormal.Plan.ProjectLock

/-!
# Drift directly after the lock

The manifest that is read back from a project's row against the manifest the project was
locked to.
-/

namespace SpineFormal.Plan

open Py Psql
open Json (Value Members PlainText castJsonb unslash)
set_option autoImplicit false

/-! ## What psql is given -/

theorem escapeValue_plain {s : String} (h : PlainText s) : EscapeValue s.toList where
  escapes := Json.escapeText_plain fun c hc => (h c hc).2.2
  ascii c hc := (h c hc).1.2
  line hmem := absurd (h _ hmem).1 (by decide)

theorem unslash_plain {s : String} (h : PlainText s) : unslash s.toList = s.toList :=
  Json.unslash_of_notMem fun hmem => (h _ hmem).2.2 rfl

theorem unescaped_hex {c : Char} {bs : Bytes} (hc : c ∈ hex bs) : Json.Unescaped c := by
  obtain ⟨b, -, hb⟩ := List.mem_flatMap.mp hc
  obtain ⟨d, hd, rfl⟩ := Numerals.mem_fixed (by decide) hb
  have hdigits : ∀ d < 16, Json.Unescaped (Nat.digitChar d) := by decide
  exact hdigits d hd

theorem plainText_version (text : List Char) : PlainText ("sha256:" ++ hexdigest text) := by
  intro c hc
  rw [String.toList_append, List.mem_append, hexdigest_toList] at hc
  rcases hc with hc | hc
  · have hall : ∀ c ∈ "sha256:".toList, Json.Unescaped c :=
      Numerals.forall_mem_of_all (by decide)
    exact hall c hc
  · exact unescaped_hex hc

theorem ProjectRow.plain_of_isProject {row : ProjectRow} {pid : String}
    (h : row.isProject pid = true) : PlainText pid := by
  rw [ProjectRow.isProject, Bool.or_eq_true, decide_eq_true_iff, decide_eq_true_iff] at h
  rcases h with rfl | rfl
  · exact row.uuid_plain
  · exact row.id_plain

theorem not_setCommand {sql : List Char} {c : Char} (hhead : sql.head? = some c)
    (hlow : c.toNat ≤ 0x7e) (hc : c ≠ '\\') : ¬ setCommand <+: encodeUtf8 sql := by
  obtain ⟨s, rfl⟩ := List.head?_eq_some_iff.mp hhead
  rw [encodeUtf8_cons, encodeChar_of_ascii (Nat.lt_of_le_of_lt hlow (by decide))]
  rintro ⟨rest, heq⟩
  have hbyte : (92 : UInt8) = UInt8.ofNat c.toNat := (List.cons.inj heq).1
  exact Json.byte_ne hlow (a := '\\') (by decide) hc hbyte.symm

section
variable {reprOf : PyValue → String} {copySet : List Atom → List Atom}
variable {isalnumBeyond : Char → Bool} {B : Bare}

theorem lockProjectToPipeline_eq (isalnumBeyond : Char → Bool) (B : Bare)
    (table : ProjectTable) {pid : String} (hpid : PlainText pid)
    {m : PipelineManifest} {w : Value} (hw : toJson reprOf (.dict (modelDump copySet m)) = some w) :
    lockProjectToPipeline reprOf copySet isalnumBeyond B table pid m =
      (castJsonb (unslash (Json.encode w))).map fun document => table.map fun row =>
        if row.isProject pid then row.locked ("sha256:" ++ hexdigest (Json.encode w)) document
        else row := by
  have hversion := plainText_version (Json.encode w)
  have hbound : psqlBound isalnumBeyond B lockSql
      [("version".toList, ("sha256:" ++ hexdigest (Json.encode w)).toList),
        ("snap".toList, Json.encode w), ("pid".toList, pid.toList)] =
      some [("sha256:" ++ hexdigest (Json.encode w)).toList, unslash (Json.encode w),
        pid.toList] := by
    have hsql : ¬ setCommand <+: encodeUtf8 lockSql :=
      not_setCommand (c := 'U') (by decide +kernel) (by decide) (by decide)
    have hnames : ["version".toList, "snap".toList, "pid".toList].Nodup := by decide
    refine (psqlBound_escapeValues B hsql (by decide +kernel) ?_ ?_ ?_).trans ?_
    · rfl
    · exact hnames
    · intro b hb
      simp only [List.mem_cons, List.not_mem_nil, or_false] at hb
      rcases hb with rfl | rfl | rfl
      · exact escapeValue_plain hversion
      · exact escapeValue_encode w
      · exact escapeValue_plain hpid
    · rw [List.map_cons, List.map_cons, List.map_cons, unslash_plain hversion, unslash_plain hpid]
      rfl
  rw [lockProjectToPipeline, computePipelineVersion_eq hw, snapshotText, dumps, hw]
  simp only [Option.bind_eq_bind, Option.bind_some, Option.map_some, hbound, String.ofList_toList]
  cases castJsonb (unslash (Json.encode w)) <;> rfl

theorem psqlBound_pid {sql : List Char} (hsql : ¬ setCommand <+: encodeUtf8 sql)
    (hline : '\n' ∉ sql) {pid : String} (hpid : PlainText pid) :
    psqlBound isalnumBeyond B sql [("pid".toList, pid.toList)] = some [pid.toList] := by
  refine (psqlBound_escapeValues B hsql hline ?_ ?_ ?_).trans ?_
  · rfl
  · exact List.nodup_singleton _
  · intro b hb
    obtain rfl := List.mem_singleton.mp hb
    exact escapeValue_plain hpid
  · rw [List.map_cons, unslash_plain hpid]
    rfl

theorem getLockedPipeline_eq (table : ProjectTable) {pid : String} (hpid : PlainText pid) :
    getLockedPipeline isalnumBeyond B table pid =
      (table.find? (·.isProject pid)).bind manifestOfSnapshot := by
  have hsql : ¬ setCommand <+: encodeUtf8 lockedSql :=
    not_setCommand (c := 'S') (by decide +kernel) (by decide) (by decide)
  rw [getLockedPipeline, psqlBound_pid hsql (by decide +kernel) hpid]
  simp only [Option.bind_eq_bind, Option.bind_some, String.ofList_toList]

/-- The lock is on every row of the project, the first of which is read back. -/
theorem find?_locked {table : ProjectTable} {pid : String} {row : ProjectRow}
    (h : table.find? (·.isProject pid) = some row) (version : String) (document : Value) :
    (table.map fun row => if row.isProject pid then row.locked version document else row).find?
      (·.isProject pid) = some (row.locked version document) := by
  have hkept : ((fun row : ProjectRow => row.isProject pid) ∘ fun row : ProjectRow =>
      if row.isProject pid then row.locked version document else row) = (·.isProject pid) := by
    funext row
    rw [Function.comp_apply]
    split <;> rfl
  rw [List.find?_map, hkept, h, Option.map_some, if_pos (List.find?_some h)]

/-! ## The dump of the locked manifest -/

/-- The members of a snapshot that are hashed. -/
def bodyMembers (ms : Members) : Members := ms.filter fun m => m.1 ∉ derivedFields

theorem pipelineBody_ofJson (ms : Members) :
    pipelineBody (ofJsonMembers ms) = ofJsonMembers (bodyMembers ms) := by
  rw [pipelineBody, bodyMembers, ofJsonMembers_eq_map, ofJsonMembers_eq_map, List.filter_map]
  congr 1
  refine List.filter_congr fun m _ => ?_
  rw [Function.comp_apply, Bool.eq_iff_iff, Bool.not_eq_true', ← Bool.not_eq_true, isField_str,
    decide_eq_true_iff]

theorem keys_ofJsonMembers (ms : Members) :
    (ofJsonMembers ms).map Prod.fst = (ms.map Prod.fst).map Atom.str := by
  rw [ofJsonMembers_eq_map, List.map_map, List.map_map]
  rfl

theorem keys_modelDump (copySet : List Atom → List Atom) (m : PipelineManifest) :
    (modelDump copySet m).map Prod.fst = m.body.map Prod.fst := by
  rw [modelDump, rebuildItems_eq_map, List.map_map]
  rfl

theorem stringKeys_modelDump {m : PipelineManifest} (h : StringKeys m.body) :
    StringKeys (modelDump copySet m) := by
  intro i hi
  have hmem : i.1 ∈ m.body.map Prod.fst := keys_modelDump copySet m ▸
    List.mem_map_of_mem hi
  obtain ⟨j, hj, heq⟩ := List.mem_map.mp hmem
  exact heq ▸ h j hj

/-- A manifest read from a snapshot is dumped as the snapshot without derived fields. -/
theorem toJson_snapshot {ms : Members} (hd : (ms.map Prod.fst).Nodup) {version : String}
    {chain : List String} {m : PipelineManifest}
    (h : validated (ofJsonMembers ms) version chain = some m) (hfull : m.Full) :
    toJson reprOf (.dict (modelDump copySet m)) = some (Value.obj (bodyMembers ms)).sortKeys := by
  have hfrom := (validatedFrom h).1
  have hkeys : ((ofJsonMembers ms).map Prod.fst).Nodup := by
    rw [keys_ofJsonMembers]
    exact hd.map fun _ _ heq => Atom.str.inj heq
  have hperm : (modelDump copySet m).Perm (ofJsonMembers (bodyMembers ms)) := by
    have hbody := body_perm hfrom hfull hkeys
    rw [pipelineBody_ofJson] at hbody
    have hcopied := hbody.map fun i : Atom × PyValue => (i.1, rebuild copySet i.2)
    rw [← rebuildItems_eq_map, ← rebuildItems_eq_map] at hcopied
    have hsame := rebuild_ofJson copySet (.obj (bodyMembers ms))
    rw [ofJson, rebuild, PyValue.dict.injEq] at hsame
    rwa [hsame] at hcopied
  rw [toJson_dict_perm hperm (stringKeys_modelDump (stringKeys_body hfrom))
    (keys_modelDump copySet m ▸ nodup_body hfrom hkeys)]
  exact toJson_ofJson (.obj (bodyMembers ms))

/-! ## What stands in a dump -/

theorem get?_modelDump {m : PipelineManifest} (hd : (m.body.map Prod.fst).Nodup)
    {f : String × PyValue} (hf : f ∈ m.fields) :
    Dict.get? (modelDump copySet m) (.str f.1) = some (rebuild copySet f.2) := by
  rw [get?_eq_some_iff (keys_modelDump copySet m ▸ hd), modelDump, rebuildItems_eq_map]
  have hbody : (Atom.str f.1, f.2) ∈ m.body :=
    List.mem_append_left _ (List.mem_map_of_mem (f := fun f => (Atom.str f.1, f.2)) hf)
  exact List.mem_map_of_mem (f := fun i : Atom × PyValue => (i.1, rebuild copySet i.2)) hbody

/-- The dump of a manifest has each field under its name. -/
theorem lookup_field {m : PipelineManifest} (hs : StringKeys m.body)
    (hd : (m.body.map Prod.fst).Nodup) {ns : Members}
    (hw : toJson reprOf (.dict (modelDump copySet m)) = some (.obj ns)) {f : String × PyValue}
    (hf : f ∈ m.fields) : Json.lookup ns f.1 = toJson reprOf (rebuild copySet f.2) := by
  rw [lookup_toJson (stringKeys_modelDump hs) (keys_modelDump copySet m ▸ hd) hw,
    get?_modelDump hd hf, Option.bind_some]

theorem get?_eq_none {d : Dict} {key : String} (h : Atom.str key ∉ d.map Prod.fst) :
    Dict.get? d (.str key) = none := by
  induction d with
  | nil => rfl
  | cons i d ih =>
    obtain ⟨hne, hd⟩ := List.ne_and_not_mem_of_not_mem_cons h
    rw [Dict.get?, if_neg fun hsame => hne ((same_str_iff i.1 key).mp hsame).symm, ih hd]

theorem lookup_derived {m : PipelineManifest} (h : Loaded reprOf m) {ns : Members}
    (hw : toJson reprOf (.dict (modelDump copySet m)) = some (.obj ns)) {key : String}
    (hkey : key ∈ derivedFields) : Json.lookup ns key = none := by
  have hnone : Dict.get? (modelDump copySet m) (.str key) = none :=
    get?_eq_none (keys_modelDump copySet m ▸ h.derived key hkey)
  rw [lookup_toJson (stringKeys_modelDump h.strings)
    (keys_modelDump copySet m ▸ h.nodup) hw, hnone, Option.bind_none]

theorem exists_obj {d : Dict} {w : Value} (h : toJson reprOf (.dict d) = some w) :
    ∃ ns, w = .obj ns ∧ (ns = [] → d = []) := by
  obtain ⟨js, ns, hjs, hns, rfl⟩ := (toJson_dict_iff _ _).mp h
  refine ⟨ns, rfl, ?_⟩
  rintro rfl
  cases d with
  | nil => rfl
  | cons i d =>
    obtain ⟨j, js', -, -, rfl⟩ := (toJsonItems_cons i.1 i.2 d js).mp hjs
    obtain ⟨_, -, hmem⟩ := keyText_of_mem hns List.mem_cons_self
    cases hmem

/-- The sections of a manifest that is dumped as a full one are not empty. -/
theorem full_of_dump {m m' : PipelineManifest} (hs : StringKeys m.body)
    (hd : (m.body.map Prod.fst).Nodup) (hs' : StringKeys m'.body)
    (hd' : (m'.body.map Prod.fst).Nodup) {w : Value}
    (hw : toJson reprOf (.dict (modelDump copySet m)) = some w)
    (hw' : toJson reprOf (.dict (modelDump copySet m')) = some w) (h : m.Full) : m'.Full := by
  obtain ⟨ns, rfl, -⟩ := exists_obj hw
  have hsection : ∀ key {d d'}, (key, .dict d) ∈ m.fields → (key, .dict d') ∈ m'.fields →
      d ≠ [] → d' ≠ [] := by
    rintro key d d' hf hf' hne rfl
    have hlookup := lookup_field hs hd hw hf
    rw [lookup_field hs' hd' hw' hf'] at hlookup
    obtain ⟨_, heq, hempty⟩ := exists_obj (d := rebuildItems copySet d) hlookup.symm
    have hnil := hempty (Value.obj.inj heq).symm
    rw [rebuildItems_eq_map, List.map_eq_nil_iff] at hnil
    exact hne hnil
  constructor
  · exact hsection "project_types" (by simp [PipelineManifest.fields])
      (by simp [PipelineManifest.fields]) h.project_types
  · exact hsection "tier_routing" (by simp [PipelineManifest.fields])
      (by simp [PipelineManifest.fields]) h.tier_routing
  · exact hsection "overrides" (by simp [PipelineManifest.fields])
      (by simp [PipelineManifest.fields]) h.overrides
  · exact hsection "capabilities" (by simp [PipelineManifest.fields])
      (by simp [PipelineManifest.fields]) h.capabilities
  · exact hsection "audit" (by simp [PipelineManifest.fields])
      (by simp [PipelineManifest.fields]) h.audit

/-! ## Reading back a snapshot with its keys in order -/

theorem sortKeys_eq_obj {v : Value} {ns : Members} (h : v.sortKeys = .obj ns) :
    ∃ ms, v = .obj ms ∧ (ms = [] → ns = []) := by
  cases v with
  | obj ms =>
    refine ⟨ms, rfl, ?_⟩
    rintro rfl
    exact (Value.obj.inj h).symm
  | arr xs =>
    rw [Json.sortKeys_arr] at h
    cases h
  | _ => cases h

theorem sortKeys_eq_int {v : Value} {n : Int} (h : .int n = v.sortKeys) : v = .int n := by
  cases v with
  | int k => exact h.symm
  | arr xs =>
    rw [Json.sortKeys_arr] at h
    cases h
  | _ => cases h

theorem sortKeys_eq_str {v : Value} {s : String} (h : .str s = v.sortKeys) : v = .str s := by
  cases v with
  | str t => exact h.symm
  | arr xs =>
    rw [Json.sortKeys_arr] at h
    cases h
  | _ => cases h

theorem stringKeyed_ofJson (ms : Members) :
    stringKeyed (ofJson (.obj ms)) = some (ofJsonMembers ms) := by
  refine if_pos (List.all_eq_true.mpr fun m hm => ?_)
  rw [ofJsonMembers_eq_map] at hm
  obtain ⟨x, -, rfl⟩ := List.mem_map.mp hm
  rfl

theorem exists_phases {phases : List Dict} {v : Value}
    (h : toJson reprOf (rebuild copySet (.list (phases.map .dict))) = some v.sortKeys) :
    ∃ xs ds, v = .arr xs ∧ (xs.map ofJson).mapM stringKeyed = some ds := by
  rw [rebuild, rebuildElems_eq_map, toJson_list_iff] at h
  obtain ⟨js, hjs, heq⟩ := h
  cases v with
  | arr xs =>
    rw [Json.sortKeys_arr, Value.arr.injEq] at heq
    obtain rfl := heq
    have hall : ∀ p ∈ xs.map ofJson, ∃ d, stringKeyed p = some d := by
      refine List.forall_mem_map.mpr fun x hx => ?_
      have hmem : some x.sortKeys ∈ (xs.map Value.sortKeys).map some :=
        List.mem_map_of_mem (List.mem_map_of_mem hx)
      rw [← hjs, List.map_map, List.map_map] at hmem
      obtain ⟨d, -, hd⟩ := List.mem_map.mp hmem
      obtain ⟨ns, hns, -⟩ := exists_obj (d := rebuildItems copySet d) hd
      obtain ⟨ms, rfl, -⟩ := sortKeys_eq_obj hns
      exact ⟨_, stringKeyed_ofJson ms⟩
    obtain ⟨ds, hds⟩ := exists_mapM hall
    exact ⟨xs, ds, rfl, hds⟩
  | _ => cases heq

/-- A snapshot that is the dump of a manifest up to the order of its keys is validated. -/
theorem exists_validated {m : PipelineManifest} (h : Loaded reprOf m) {ms ns : Members}
    (hw : toJson reprOf (.dict (modelDump copySet m)) = some (.obj ns))
    (hd : (ms.map Prod.fst).Nodup) (hsort : (Value.obj ms).sortKeys = .obj ns) (version : String)
    (chain : List String) :
    ∃ locked, validated (ofJsonMembers ms) version chain = some locked ∧ locked.Full := by
  have hlookup : ∀ key, Json.lookup ns key = (Json.lookup ms key).map Value.sortKeys :=
    Json.lookup_sortKeys hd hsort
  have hfield : ∀ {f}, f ∈ m.fields → ∃ v, Json.lookup ms f.1 = some v ∧
      toJson reprOf (rebuild copySet f.2) = some v.sortKeys := by
    intro f hf
    obtain ⟨js, _, hjs, -, -⟩ := (toJson_dict_iff _ _).mp hw
    have hmem := (get?_eq_some_iff (keys_modelDump copySet m ▸ h.nodup) f.1 _).mp
      (get?_modelDump h.nodup hf)
    obtain ⟨j, hj⟩ := toJson_some_of_mem hjs hmem
    have hns := lookup_field h.strings h.nodup hw hf
    rw [hj, hlookup, Option.map_eq_some_iff] at hns
    obtain ⟨v, hv, rfl⟩ := hns
    exact ⟨v, hv, hj⟩
  have hsection : ∀ {key : String} {d : Dict}, (key, .dict d) ∈ m.fields → d ≠ [] →
      ∃ ms', Json.lookup ms key = some (.obj ms') ∧ ms' ≠ [] := by
    intro key d hf hne
    obtain ⟨v, hv, hj⟩ := hfield hf
    obtain ⟨ns', heq, hempty⟩ := exists_obj (d := rebuildItems copySet d) hj
    obtain ⟨ms', rfl, hnil⟩ := sortKeys_eq_obj heq
    refine ⟨ms', hv, fun hms => hne ?_⟩
    have hd := hempty (hnil hms)
    rwa [rebuildItems_eq_map, List.map_eq_nil_iff] at hd
  have hsections : ∀ key ∈ sections, ∃ ms', Json.lookup ms key = some (.obj ms') ∧ ms' ≠ [] := by
    intro key hkey
    simp only [sections, List.mem_cons, List.not_mem_nil, or_false] at hkey
    rcases hkey with rfl | rfl | rfl | rfl | rfl
    · exact hsection (by simp [PipelineManifest.fields]) h.full.project_types
    · exact hsection (by simp [PipelineManifest.fields]) h.full.tier_routing
    · exact hsection (by simp [PipelineManifest.fields]) h.full.overrides
    · exact hsection (by simp [PipelineManifest.fields]) h.full.capabilities
    · exact hsection (by simp [PipelineManifest.fields]) h.full.audit
  have hget : ∀ {key v}, Json.lookup ms key = some v →
      Dict.get? (ofJsonMembers ms) (.str key) = some (ofJson v) := by
    intro key v hv
    rw [get?_ofJsonMembers, hv, Option.map_some]
  have hdict : ∀ {key ms'}, Json.lookup ms key = some (.obj ms') →
      stringField (ofJsonMembers ms) key = some (ofJsonMembers ms') := by
    intro key ms' hv
    rw [stringField, hget hv, Option.getD_some, stringKeyed_ofJson]
  obtain ⟨v, hv, hint⟩ := hfield (f := ("version", .atom (.int m.version))) List.mem_cons_self
  obtain rfl := sortKeys_eq_int (Option.some.inj hint)
  obtain ⟨v, horg, hstr⟩ := hfield (f := ("org_bundle", .text m.orgBundle)) (.tail _ (.head _))
  obtain rfl := sortKeys_eq_str (Option.some.inj hstr)
  obtain ⟨v, hphases, harr⟩ :=
    hfield (f := ("phases", .list (m.phases.map .dict))) (.tail _ (.tail _ (.head _)))
  obtain ⟨phases, ds, rfl, hphase⟩ := exists_phases harr
  obtain ⟨types, htypes, -⟩ := hsections "project_types" (by decide)
  obtain ⟨routing, hrouting, -⟩ := hsections "tier_routing" (by decide)
  obtain ⟨overrides, hoverrides, -⟩ := hsections "overrides" (by decide)
  obtain ⟨capabilities, hcapabilities, -⟩ := hsections "capabilities" (by decide)
  obtain ⟨audit, haudit, -⟩ := hsections "audit" (by decide)
  have hvalid : ∃ locked, validated (ofJsonMembers ms) version chain = some locked := by
    have hall : stringKeyed (.dict (ofJsonMembers ms)) = some (ofJsonMembers ms) :=
      stringKeyed_ofJson ms
    simp only [validated, hall, Option.bind_eq_bind, Option.bind_some, Dict.get, hget hv,
      hget horg, hget hphases, Option.getD_some, ofJson, ofJsonElems_eq_map, PyValue.text,
      hdict htypes, hdict hrouting, hdict hoverrides, hdict hcapabilities, hdict haudit, hphase]
    exact ⟨_, rfl⟩
  obtain ⟨locked, hlocked⟩ := hvalid
  have hsound : Sound (ofJsonMembers ms) := by
    constructor
    · rw [keys_ofJsonMembers]
      exact hd.map fun _ _ heq => Atom.str.inj heq
    · intro key hkey
      obtain ⟨ms', hms', hne⟩ := hsections key hkey
      refine ⟨ofJsonMembers ms', by rw [Dict.get, hget hms']; rfl, ?_⟩
      rw [ofJsonMembers_eq_map]
      exact fun hnil => hne (List.map_eq_nil_iff.mp hnil)
  exact ⟨locked, hlocked, full_of_sound hsound hlocked⟩

/-! ## The two versions -/

section
variable (reprOf copySet isalnumBeyond B)

/-- What is read back of the project after the lock. -/
def lockedAfter (table : ProjectTable) (pid : String) (m : PipelineManifest) :
    Option PipelineManifest :=
  (lockProjectToPipeline reprOf copySet isalnumBeyond B table pid m).bind
    (getLockedPipeline isalnumBeyond B · pid)

/-- The texts that are hashed when a manifest is loaded, locked and compared. -/
def hashedTexts (table : ProjectTable) (pid : String) (m : PipelineManifest) : Set Bytes :=
  {b | ∃ body ∈ m.body :: modelDump copySet m ::
      ((lockedAfter reprOf copySet isalnumBeyond B table pid m).map (modelDump copySet)).toList,
    ∃ text, dumps reprOf (.dict body) = some text ∧ b = encodeUtf8 text}

/-- The lock is taken, and directly after it the manifest has not drifted. -/
def LockHolds (table : ProjectTable) (pid : String) (m : PipelineManifest) : Prop :=
  ∃ table', lockProjectToPipeline reprOf copySet isalnumBeyond B table pid m = some table' ∧
    isPipelineDrifted reprOf copySet isalnumBeyond B table' pid m = some false

end

theorem version_inj {texts : Set Bytes} (hcf : CollisionFreeOn texts) {v w : Value}
    (hv : encodeUtf8 (Json.encode v) ∈ texts) (hw : encodeUtf8 (Json.encode w) ∈ texts)
    (h : "sha256:" ++ hexdigest (Json.encode v) = "sha256:" ++ hexdigest (Json.encode w)) :
    v = w := by
  have hhex : hexdigest (Json.encode v) = hexdigest (Json.encode w) := by
    have hlist := congrArg String.toList h
    rw [String.toList_append, String.toList_append] at hlist
    exact String.toList_inj.mp (List.append_cancel_left hlist)
  exact Json.encode_injective (hexdigest_inj hcf hv hw hhex)

theorem bodyMembers_eq_self {ms : Members} (h : ∀ key ∈ derivedFields, key ∉ ms.map Prod.fst) :
    bodyMembers ms = ms := by
  rw [bodyMembers, List.filter_eq_self]
  intro m hm
  exact decide_eq_true fun hkey => h m.1 hkey (List.mem_map_of_mem hm)

theorem weight_bodyMembers (ms : Members) :
    (Value.obj (bodyMembers ms)).weight ≤ (Value.obj ms).weight := by
  rw [Json.weight_obj, Json.weight_obj]
  exact (List.filter_sublist.map Json.memberWeight).sum_le_sum fun _ _ => Nat.zero_le _

/-- What is read of a project's row whose snapshot is a manifest's dump up to the order of
its keys is dumped alike. -/
theorem manifestOfSnapshot_locked {m : PipelineManifest} (h : Loaded reprOf m) {u w : Value}
    (hw : toJson reprOf (.dict (modelDump copySet m)) = some w) (hd : u.Distinct)
    (hsort : u.sortKeys = w) (row : ProjectRow) (version : String) :
    ∃ locked, manifestOfSnapshot (row.locked version u) = some locked ∧
      toJson reprOf (.dict (modelDump copySet locked)) = some w := by
  obtain ⟨ns, rfl, -⟩ := exists_obj hw
  obtain ⟨ms, rfl, -⟩ := sortKeys_eq_obj hsort
  have hnodup := ((Json.distinct_obj ms).mp hd).1
  have hnone : ∀ key ∈ derivedFields, Json.lookup ms key = none := by
    intro key hkey
    have hlookup := lookup_derived h hw hkey
    rw [Json.lookup_sortKeys hnodup hsort] at hlookup
    exact Option.map_eq_none_iff.mp hlookup
  obtain ⟨locked, hlocked, hfull⟩ := exists_validated h hw hnodup hsort version []
  have hbody : bodyMembers ms = ms :=
    bodyMembers_eq_self fun key hkey => Json.lookup_eq_none_iff.mp (hnone key hkey)
  refine ⟨locked, ?_, by rw [toJson_snapshot hnodup hlocked hfull, hbody, hsort]⟩
  have hget : ∀ key ∈ derivedFields, Dict.get? (ofJsonMembers ms) (.str key) = none := by
    intro key hkey
    rw [get?_ofJsonMembers, hnone key hkey, Option.map_none]
  have hversion := hget "resolved_version" (by decide)
  have hchain := hget "inheritance_chain" (by decide)
  simp only [manifestOfSnapshot, ProjectRow.locked, Option.bind_eq_bind, Option.bind_some, ofJson,
    PyValue.asDict, hversion, hchain, Option.getD_none, Option.getD_some, asText, PyValue.text]
  exact hlocked

/-- What is read of a project's row is a validated snapshot. -/
theorem validated_of_manifestOfSnapshot {row : ProjectRow} {version : String} {u : Value}
    {locked : PipelineManifest}
    (h : manifestOfSnapshot (row.locked version u) = some locked) :
    ∃ ms resolved chain, u = .obj ms ∧
      validated (ofJsonMembers ms) resolved chain = some locked := by
  simp only [manifestOfSnapshot, ProjectRow.locked, Option.bind_eq_bind, Option.bind_some,
    Option.bind_eq_some_iff] at h
  obtain ⟨body, hbody, resolved, -, h⟩ := h
  split at h
  · obtain ⟨chain, -, h⟩ := Option.bind_eq_some_iff.mp h
    cases u with
    | obj ms =>
      obtain rfl := Option.some.inj hbody
      exact ⟨ms, resolved, chain, rfl, h⟩
    | _ => cases hbody
  · cases h

theorem exists_dump {m : PipelineManifest} {version : String}
    (h : computePipelineVersion reprOf copySet m = some version) :
    ∃ w, toJson reprOf (.dict (modelDump copySet m)) = some w ∧
      version = "sha256:" ++ hexdigest (Json.encode w) := by
  rw [computePipelineVersion, versionOf, dumps, Option.map_map] at h
  obtain ⟨w, hw, rfl⟩ := Option.map_eq_some_iff.mp h
  exact ⟨w, hw, rfl⟩

/-- Where the versions of two dumps are equal only for equal dumps, what has not drifted is
dumped alike. -/
theorem dump_of_not_drifted {m : PipelineManifest} {w : Value} {table : ProjectTable}
    {pid : String} (hw : toJson reprOf (.dict (modelDump copySet m)) = some w)
    (h : isPipelineDrifted reprOf copySet isalnumBeyond B table pid m = some false)
    (hinj : ∀ locked, getLockedPipeline isalnumBeyond B table pid = some locked →
      ∀ w', toJson reprOf (.dict (modelDump copySet locked)) = some w' →
      "sha256:" ++ hexdigest (Json.encode w') = "sha256:" ++ hexdigest (Json.encode w) → w' = w) :
    ∃ locked, getLockedPipeline isalnumBeyond B table pid = some locked ∧
      toJson reprOf (.dict (modelDump copySet locked)) = some w := by
  simp only [isPipelineDrifted, Option.bind_eq_bind, Option.bind_eq_some_iff] at h
  obtain ⟨locked, hlocked, lockedVersion, hversion, currentVersion, hcurrent, h⟩ := h
  have heq : lockedVersion = currentVersion := by simpa using h
  obtain ⟨w', hw', rfl⟩ := exists_dump hversion
  rw [computePipelineVersion_eq hw, Option.some.injEq] at hcurrent
  rw [← hcurrent] at heq
  exact ⟨locked, hlocked, hinj locked hlocked w' hw' heq ▸ hw'⟩

theorem mem_hashedTexts_dump {table : ProjectTable} {pid : String} {m : PipelineManifest}
    {w : Value} (hw : toJson reprOf (.dict (modelDump copySet m)) = some w) :
    encodeUtf8 (Json.encode w) ∈ hashedTexts reprOf copySet isalnumBeyond B table pid m :=
  ⟨modelDump copySet m, .tail _ (.head _), Json.encode w, by rw [dumps, hw, Option.map_some], rfl⟩

theorem mem_hashedTexts_body {table : ProjectTable} {pid : String} {m : PipelineManifest}
    {w : Value} (hw : toJson reprOf (.dict m.body) = some w) :
    encodeUtf8 (Json.encode w) ∈ hashedTexts reprOf copySet isalnumBeyond B table pid m :=
  ⟨m.body, .head _, Json.encode w, by rw [dumps, hw, Option.map_some], rfl⟩

theorem mem_hashedTexts_locked {table table' : ProjectTable} {pid : String}
    {m locked : PipelineManifest} {w : Value}
    (hlock : lockProjectToPipeline reprOf copySet isalnumBeyond B table pid m = some table')
    (hlocked : getLockedPipeline isalnumBeyond B table' pid = some locked)
    (hw : toJson reprOf (.dict (modelDump copySet locked)) = some w) :
    encodeUtf8 (Json.encode w) ∈ hashedTexts reprOf copySet isalnumBeyond B table pid m := by
  refine ⟨modelDump copySet locked, .tail _ (.tail _ ?_), Json.encode w,
    by rw [dumps, hw, Option.map_some], rfl⟩
  rw [lockedAfter, hlock, Option.bind_some, hlocked]
  exact .head _

/-- A dump that is read back as it was is stable. -/
theorem stable_of_lock {m locked : PipelineManifest} (h : Loaded reprOf m) {u w : Value}
    (hw : toJson reprOf (.dict (modelDump copySet m)) = some w)
    (hu : castJsonb (unslash (Json.encode w)) = some u) {row : ProjectRow} {version : String}
    (hlocked : manifestOfSnapshot (row.locked version u) = some locked)
    (hdump : toJson reprOf (.dict (modelDump copySet locked)) = some w) : w.Stable := by
  obtain ⟨ms, resolved, chain, rfl, hvalid⟩ := validated_of_manifestOfSnapshot hlocked
  have hnodup := ((Json.distinct_obj ms).mp (Json.castJsonb_distinct hu)).1
  have hfrom := (validatedFrom hvalid).1
  have hkeys : ((ofJsonMembers ms).map Prod.fst).Nodup := by
    rw [keys_ofJsonMembers]
    exact hnodup.map fun _ _ heq => Atom.str.inj heq
  have hfull : locked.Full := full_of_dump h.strings h.nodup (stringKeys_body hfrom)
    (nodup_body hfrom hkeys) hw hdump h.full
  have hsort : w = (Value.obj (bodyMembers ms)).sortKeys :=
    Option.some.inj (hdump.symm.trans (toJson_snapshot hnodup hvalid hfull))
  by_cases hslash : '\\' ∈ Json.encode w
  · -- what has lost a backslash does not weigh enough
    have hlt := Json.castJsonb_unslash_lt hslash hu
    have hle : w.weight ≤ (Value.obj ms).weight := by
      rw [hsort]
      exact (Json.sortKeys_weight _).trans (weight_bodyMembers ms)
    exact absurd hlt (Nat.not_lt.mpr hle)
  · obtain ⟨ns, rfl, -⟩ := exists_obj hw
    have hbody : bodyMembers ms = ms := by
      refine bodyMembers_eq_self fun key hkey hmem => ?_
      rw [Json.unslash_of_notMem hslash] at hu
      exact Json.lookup_eq_none_iff.mp (lookup_derived h hw hkey) (Json.castJsonb_keys hu hmem)
    rw [hbody] at hsort
    exact Json.stable_of_castJsonb hslash hu hsort.symm

/-- Directly after the lock the manifest has not drifted exactly when its dump comes back
from the column. -/
theorem lockHolds_iff {m : PipelineManifest} (h : Loaded reprOf m) {w : Value}
    (hw : toJson reprOf (.dict (modelDump copySet m)) = some w) {table : ProjectTable}
    {pid : String} {row : ProjectRow} (hrow : table.find? (·.isProject pid) = some row)
    (hcf : CollisionFreeOn (hashedTexts reprOf copySet isalnumBeyond B table pid m)) :
    LockHolds reprOf copySet isalnumBeyond B table pid m ↔ w.Stable := by
  have hpid := row.plain_of_isProject (List.find?_some hrow)
  have hlock := lockProjectToPipeline_eq isalnumBeyond B table hpid hw
  have hread : ∀ u, castJsonb (unslash (Json.encode w)) = some u →
      ∃ table', lockProjectToPipeline reprOf copySet isalnumBeyond B table pid m = some table' ∧
        getLockedPipeline isalnumBeyond B table' pid =
          manifestOfSnapshot (row.locked ("sha256:" ++ hexdigest (Json.encode w)) u) := by
    intro u hu
    rw [hlock, hu]
    refine ⟨_, rfl, ?_⟩
    rw [getLockedPipeline_eq _ hpid, find?_locked hrow, Option.bind_some]
  constructor
  · rintro ⟨table', htable, hdrift⟩
    rw [hlock] at htable
    obtain ⟨u, hu, -⟩ := Option.map_eq_some_iff.mp htable
    obtain ⟨_, htable', hget⟩ := hread u hu
    rw [hlock] at htable'
    obtain rfl := Option.some.inj (htable.symm.trans htable')
    obtain ⟨locked, hlocked, hdump⟩ := dump_of_not_drifted hw hdrift fun _ hlocked _ hw' =>
      version_inj hcf (mem_hashedTexts_locked (hlock.trans htable) hlocked hw')
        (mem_hashedTexts_dump hw)
    rw [hget] at hlocked
    exact stable_of_lock h hw hu hlocked hdump
  · intro hstable
    obtain ⟨u, hu, hsort⟩ := Json.castJsonb_of_stable hstable
    obtain ⟨table', htable, hget⟩ := hread u hu
    obtain ⟨locked, hlocked, hdump⟩ := manifestOfSnapshot_locked h hw
      (Json.castJsonb_distinct hu) hsort row ("sha256:" ++ hexdigest (Json.encode w))
    refine ⟨table', htable, ?_⟩
    rw [isPipelineDrifted, hget, hlocked]
    simp only [Option.bind_eq_bind, Option.bind_some, computePipelineVersion_eq hdump,
      computePipelineVersion_eq hw]
    simp

theorem resolvedVersion_iff {m : PipelineManifest} (h : Loaded reprOf m) {w : Value}
    (hw : toJson reprOf (.dict (modelDump copySet m)) = some w) {table : ProjectTable}
    {pid : String}
    (hcf : CollisionFreeOn (hashedTexts reprOf copySet isalnumBeyond B table pid m)) :
    computePipelineVersion reprOf copySet m = some m.resolvedVersion ↔
      toJson reprOf (.dict m.body) = some w := by
  obtain ⟨v, hv, hversion⟩ := h.version
  rw [computePipelineVersion_eq hw, hversion, Option.some.injEq, hv, Option.some.injEq]
  constructor
  · intro heq
    exact (version_inj hcf (mem_hashedTexts_dump hw) (mem_hashedTexts_body hv) heq).symm
  · rintro rfl
    rfl

/-- The version of a loaded manifest stands, in memory and over the lock, exactly when the
manifest is dumped alike when it is copied and when it is stored. -/
theorem loadPipeline_lock_iff {home : SpineHome} {projectId bundleId : String}
    {projectOverrides : PyValue} {m : PipelineManifest}
    (h : loadPipeline reprOf home projectId bundleId projectOverrides = some m)
    {table : ProjectTable} {pid : String} {row : ProjectRow}
    (hrow : table.find? (·.isProject pid) = some row)
    (hcf : CollisionFreeOn (hashedTexts reprOf copySet isalnumBeyond B table pid m)) :
    (computePipelineVersion reprOf copySet m = some m.resolvedVersion ∧
      LockHolds reprOf copySet isalnumBeyond B table pid m) ↔
      Storable reprOf copySet (.dict m.body) := by
  have hloaded := loaded h
  obtain ⟨w, hw⟩ : ∃ w, toJson reprOf (.dict (modelDump copySet m)) = some w :=
    exists_toJson_modelDump hloaded
  rw [resolvedVersion_iff hloaded hw hcf, lockHolds_iff hloaded hw hrow hcf]
  exact (storable_iff ((congrArg (toJson reprOf) (rebuild_body m)).trans hw)).symm

end

/-! ## A quotation mark in the name of an artifact -/

def quotedOverlay : PyValue := mapping [
  ("phases", mapping [
    ("modify", mapping [("intake", mapping [("artifact", .text "PRD \"lite\"")])])])]

def oneProject : ProjectRow where
  uuid := "7b0f2c1e-52a8-4c0c-9a44-0d5b7a1f6e21"
  id := "1"
  status := "active"
  currentPhase := "intake"
  pipelineVersion := none
  snapshot := none
  uuid_plain := by decide
  id_plain := by decide

/-- psql drops the backslashes, and what is left is no JSON. -/
theorem lock_quoted : ∃ m,
    loadPipeline (fun _ => "") (fun _ => .absent) "" "" quotedOverlay = some m ∧
    lockProjectToPipeline (fun _ => "") id (fun _ => false) untilBackslash [oneProject] "1" m =
      none := by
  have heval : ((loadPipeline (fun _ => "") (fun _ => .absent) "" "" quotedOverlay).bind fun m =>
      (toJson (fun _ => "") (.dict (modelDump id m))).map fun w =>
        (castJsonb (unslash (Json.encode w))).isNone) = some true := by
    decide +kernel
  obtain ⟨m, hm, heval⟩ := Option.bind_eq_some_iff.mp heval
  obtain ⟨w, hw, hnone⟩ := Option.map_eq_some_iff.mp heval
  refine ⟨m, hm, ?_⟩
  rw [lockProjectToPipeline_eq (fun _ => false) untilBackslash [oneProject]
    (show PlainText "1" from oneProject.id_plain) hw, Option.isNone_iff_eq_none.mp hnone,
    Option.map_none]

theorem rebuild_id (v : PyValue) : rebuild id v = v := by
  induction v using PyValue.inductionOn with
  | atom a => rfl
  | set xs => rfl
  | list xs ih =>
    rw [rebuild, rebuildElems_eq_map, Json.map_self_iff.mpr ih]
  | dict ms ih =>
    rw [rebuild, rebuildItems_eq_map,
      Json.map_self_iff.mpr fun m hm => (Prod.ext rfl (ih m hm) : (m.1, rebuild id m.2) = m)]

theorem loadPipeline_lock_quoted : ∃ m,
    loadPipeline (fun _ => "") (fun _ => .absent) "" "" quotedOverlay = some m ∧
    ((computePipelineVersion (fun _ => "") id m = some m.resolvedVersion ∧
      LockHolds (fun _ => "") id (fun _ => false) untilBackslash [oneProject] "1" m) ↔
      Storable (fun _ => "") id (.dict m.body)) := by
  obtain ⟨m, hm, hlock⟩ := lock_quoted
  have hrow : [oneProject].find? (·.isProject "1") = some oneProject := rfl
  refine ⟨m, hm, loadPipeline_lock_iff hm hrow ?_⟩
  have hbody : modelDump id m = m.body := PyValue.dict.inj (rebuild_id (.dict m.body))
  -- nothing is locked, and the manifest is dumped twice as one text
  rintro _ ⟨body, hbodies, text, htext, rfl⟩ _ ⟨body', hbodies', text', htext', rfl⟩ -
  have hone : ∀ body ∈ m.body :: modelDump id m :: ((lockedAfter (fun _ => "") id (fun _ => false)
      untilBackslash [oneProject] "1" m).map (modelDump id)).toList, body = m.body := by
    intro body hbody'
    rw [lockedAfter, hlock, hbody] at hbody'
    simpa using hbody'
  rw [hone body hbodies] at htext
  rw [hone body' hbodies', htext] at htext'
  rw [Option.some.inj htext']

/-- The lock is an exception. -/
theorem quoted_artifact_is_not_locked : ∃ m,
    loadPipeline (fun _ => "") (fun _ => .absent) "" "" quotedOverlay = some m ∧
    ¬ (computePipelineVersion (fun _ => "") id m = some m.resolvedVersion ∧
      LockHolds (fun _ => "") id (fun _ => false) untilBackslash [oneProject] "1" m) := by
  obtain ⟨m, hm, hlock⟩ := lock_quoted
  refine ⟨m, hm, ?_⟩
  rintro ⟨-, table', htable, -⟩
  rw [hlock] at htable
  cases htable

end SpineFormal.Plan
