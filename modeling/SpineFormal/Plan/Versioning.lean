import SpineFormal.Plan.ManifestLoader
import SpineFormal.Py.OfJson

/-!
# The version of a pipeline

`plan/pipeline/versioning.py`: the version is computed from the manifest's dump, where
`load_pipeline` computes it from the merged dictionary. The two have the same items, only
in another order and with every set built anew.
-/

namespace SpineFormal.Plan

open Py
open Json (Value)
set_option autoImplicit false

/-- The declared fields without the two derived ones. -/
def PipelineManifest.fields (m : PipelineManifest) : List (String × PyValue) :=
  [("version", .atom (.int m.version)), ("org_bundle", .text m.orgBundle),
   ("phases", .list (m.phases.map .dict)), ("project_types", .dict m.projectTypes),
   ("tier_routing", .dict m.tierRouting), ("overrides", .dict m.overrides),
   ("capabilities", .dict m.capabilities), ("audit", .dict m.audit)]

def PipelineManifest.body (m : PipelineManifest) : Dict :=
  m.fields.map (fun f => (.str f.1, f.2)) ++ m.extra

section
variable (reprOf : PyValue → String) (copySet : List Atom → List Atom)

/-- `manifest.model_dump(exclude=…)`. -/
def modelDump (m : PipelineManifest) : Dict := rebuildItems copySet m.body

def computePipelineVersion (m : PipelineManifest) : Option String :=
  versionOf reprOf (modelDump copySet m)

end

/-! ## Dictionaries with texts as keys -/

theorem get?_eq_some_iff {d : Dict} (hd : (d.map Prod.fst).Nodup) (s : String) (v : PyValue) :
    Dict.get? d (.str s) = some v ↔ (.str s, v) ∈ d := by
  induction d with
  | nil => simp [Dict.get?]
  | cons m d ih =>
    obtain ⟨hm, hd⟩ := List.nodup_cons.mp hd
    rw [Dict.get?, List.mem_cons]
    by_cases hs : m.1 = .str s
    · rw [if_pos ((same_str_iff m.1 s).mpr hs), Option.some.injEq]
      constructor
      · rintro rfl
        exact Or.inl (Prod.ext hs.symm rfl)
      · rintro (heq | hmem)
        · rw [← heq]
        · exact absurd (hs ▸ List.mem_map_of_mem (f := Prod.fst) hmem) hm
    · rw [if_neg fun h => hs ((same_str_iff m.1 s).mp h), ih hd]
      constructor
      · exact Or.inr
      · rintro (heq | hmem)
        · exact absurd (by rw [← heq]) hs
        · exact hmem

theorem mem_keys_set {d : Dict} {s : String} {v : PyValue} {k : Atom}
    (h : k ∈ (Dict.set d (.str s) v).map Prod.fst) : k ∈ d.map Prod.fst ∨ k = .str s := by
  induction d with
  | nil => exact Or.inr (List.mem_singleton.mp h)
  | cons m d ih =>
    rw [Dict.set] at h
    split at h
    · exact Or.inl h
    · rcases List.mem_cons.mp h with rfl | h
      · exact Or.inl List.mem_cons_self
      · exact (ih h).imp (List.mem_cons_of_mem m.1) id

theorem nodup_set {d : Dict} (hd : (d.map Prod.fst).Nodup) (s : String) (v : PyValue) :
    ((Dict.set d (.str s) v).map Prod.fst).Nodup := by
  induction d with
  | nil => simp [Dict.set]
  | cons m d ih =>
    obtain ⟨hm, hd'⟩ := List.nodup_cons.mp hd
    rw [Dict.set]
    split
    · exact hd
    · rename_i hs
      refine List.nodup_cons.mpr ⟨fun hmem => ?_, ih hd'⟩
      rcases mem_keys_set hmem with hmem | heq
      · exact hm hmem
      · exact hs ((same_str_iff m.1 s).mpr heq)

theorem set_ne_nil (d : Dict) (k : Atom) (v : PyValue) : Dict.set d k v ≠ [] := by
  cases d with
  | nil => exact List.cons_ne_nil _ _
  | cons m d =>
    rw [Dict.set]
    split <;> exact List.cons_ne_nil _ _

/-! ## What the overlays leave of the shipped pipeline -/

/-- The sections of a manifest that are dictionaries. -/
def sections : List String := ["project_types", "tier_routing", "overrides", "capabilities", "audit"]

def IsFull (v : PyValue) : Prop := ∃ ms, v = .dict ms ∧ ms ≠ []

/-- No key twice, and no section lost or emptied. -/
structure Sound (merged : Dict) : Prop where
  nodup : (merged.map Prod.fst).Nodup
  full : ∀ key ∈ sections, IsFull (Dict.get merged (.str key))

theorem Sound.set {merged : Dict} (h : Sound merged) (key : String) {v : PyValue}
    (hv : key ∈ sections → IsFull v) : Sound (Dict.set merged (.str key) v) where
  nodup := nodup_set h.nodup key v
  full other hother := by
    by_cases hkey : key = other
    · subst hkey
      rw [Dict.get_set_str]
      exact hv hother
    · rw [Dict.get_set_of_ne merged hkey]
      exact h.full other hother

theorem sound_default : Sound sdlcPipelineDefault where
  nodup := by decide
  full key hkey := by
    simp only [sections, List.mem_cons, List.not_mem_nil, or_false] at hkey
    rcases hkey with rfl | rfl | rfl | rfl | rfl <;> exact ⟨_, rfl, List.cons_ne_nil _ _⟩

theorem isFull_setItem {v w out : PyValue} {k : Atom} (hv : IsFull v)
    (h : v.setItem k w = some out) : IsFull out := by
  obtain ⟨ms, rfl, -⟩ := hv
  obtain rfl := Option.some.inj h
  exact ⟨_, rfl, set_ne_nil ms k w⟩

theorem isFull_mergeItem {dst src out : PyValue} {k : Atom} (hdst : IsFull dst)
    (h : mergeItem dst k src = some out) : IsFull out := by
  cases src with
  | dict vs =>
    simp only [mergeItem, Option.bind_eq_bind, Option.bind_eq_some_iff] at h
    obtain ⟨d, -, h⟩ := h
    split at h
    · obtain ⟨merged, -, h⟩ := Option.bind_eq_some_iff.mp h
      exact isFull_setItem hdst h
    · exact isFull_setItem hdst h
  | atom | set | list =>
    simp only [mergeItem] at h
    exact isFull_setItem hdst h

theorem isFull_mergeItems {dst out : PyValue} {src : Dict} (hdst : IsFull dst)
    (h : mergeItems dst src = some out) : IsFull out := by
  induction src generalizing dst with
  | nil =>
    obtain rfl := Option.some.inj h
    exact hdst
  | cons m src ih =>
    rw [mergeItems] at h
    obtain ⟨dst', hdst', h⟩ := Option.bind_eq_some_iff.mp h
    exact ih (isFull_mergeItem hdst hdst') h

theorem isFull_deepMerge {dst src out : PyValue} (hdst : IsFull dst)
    (h : deepMerge dst src = some out) : IsFull out := by
  rw [deepMerge] at h
  split at h
  · obtain ⟨d, -, h⟩ := Option.bind_eq_some_iff.mp h
    exact isFull_mergeItems hdst h
  · obtain rfl := Option.some.inj h
    exact hdst

theorem IsFull.or {v w : PyValue} (h : IsFull v) : v.or w = v := by
  obtain ⟨ms, rfl, hms⟩ := h
  cases ms with
  | nil => exact absurd rfl hms
  | cons m ms => rfl

theorem ne_nil_modifyProjectType {out out' : Dict} {m : Atom × PyValue} (_ : out ≠ [])
    (h : modifyProjectType out m = some out') : out' ≠ [] := by
  obtain ⟨merged, -, h⟩ := Option.bind_eq_some_iff.mp h
  obtain rfl := Option.some.inj h
  exact set_ne_nil out m.1 merged

theorem ne_nil_appendProjectType {out out' : Dict} {new : PyValue} (hout : out ≠ [])
    (h : appendProjectType out new = some out') : out' ≠ [] := by
  cases new with
  | dict d =>
    simp only [appendProjectType] at h
    split at h
    · obtain ⟨key, -, h⟩ := Option.bind_eq_some_iff.mp h
      split at h
      · obtain rfl := Option.some.inj h
        exact hout
      · obtain rfl := Option.some.inj h
        exact set_ne_nil out key _
    · obtain rfl := Option.some.inj h
      exact hout
  | atom | set | list =>
    obtain rfl : out = out' := Option.some.inj h
    exact hout

/-- What each step keeps, a fold of steps keeps. -/
theorem foldlM_keeps {α β : Type} {P : β → Prop} {f : β → α → Option β}
    (hf : ∀ {b a b'}, P b → f b a = some b' → P b') {xs : List α} {b b' : β} (hb : P b)
    (h : xs.foldlM f b = some b') : P b' := by
  induction xs generalizing b with
  | nil =>
    obtain rfl := Option.some.inj h
    exact hb
  | cons x xs ih =>
    rw [List.foldlM_cons] at h
    obtain ⟨c, hc, h⟩ := Option.bind_eq_some_iff.mp h
    exact ih (hf hb hc) h

theorem ne_nil_projectTypesApply {base po out : Dict} (hbase : base ≠ [])
    (h : projectTypesApply base po = some out) : out ≠ [] := by
  simp only [projectTypesApply, Option.bind_eq_bind, Option.bind_eq_some_iff] at h
  obtain ⟨append, -, appended, happended, modify, -, h⟩ := h
  have hne : appended ≠ [] := foldlM_keeps (P := (· ≠ [])) ne_nil_appendProjectType hbase happended
  exact foldlM_keeps (P := (· ≠ [])) ne_nil_modifyProjectType hne h

theorem Sound.applyPhases {po : PyValue} {merged out : Dict} (h : Sound merged)
    (hout : applyPhases po merged = some out) : Sound out := by
  simp only [Plan.applyPhases, Option.bind_eq_bind, Option.bind_eq_some_iff] at hout
  obtain ⟨_, -, _, -, phases, -, hout⟩ := hout
  obtain rfl := Option.some.inj hout
  exact h.set "phases" fun hmem => absurd hmem (by decide)

theorem Sound.applyGates {po : PyValue} {merged out : Dict} (h : Sound merged)
    (hout : applyGates po merged = some out) : Sound out := by
  simp only [Plan.applyGates, Option.bind_eq_bind, Option.bind_eq_some_iff] at hout
  obtain ⟨_, -, _, -, phases, -, hout⟩ := hout
  obtain rfl := Option.some.inj hout
  exact h.set "phases" fun hmem => absurd hmem (by decide)

theorem Sound.applyProjectTypes {po : PyValue} {merged out : Dict} (h : Sound merged)
    (hout : applyProjectTypes po merged = some out) : Sound out := by
  have hfull := h.full "project_types" (by decide)
  simp only [Plan.applyProjectTypes, Option.bind_eq_bind, Option.bind_eq_some_iff] at hout
  obtain ⟨base, hbase, _, -, types, htypes, hout⟩ := hout
  obtain rfl := Option.some.inj hout
  obtain ⟨ms, hms, hne⟩ := hfull
  rw [IsFull.or ⟨ms, hms, hne⟩, hms] at hbase
  obtain rfl : ms = base := Option.some.inj hbase
  exact h.set "project_types" fun _ => ⟨types, rfl, ne_nil_projectTypesApply hne htypes⟩

theorem Sound.applyTierRouting {po : PyValue} {merged out : Dict} (h : Sound merged)
    (hout : applyTierRouting po merged = some out) : Sound out := by
  have hfull := h.full "tier_routing" (by decide)
  simp only [Plan.applyTierRouting, Option.bind_eq_bind, Option.bind_eq_some_iff] at hout
  obtain ⟨routing, hrouting, hout⟩ := hout
  obtain rfl := Option.some.inj hout
  refine h.set "tier_routing" fun _ => isFull_deepMerge ?_ hrouting
  obtain ⟨ms, hms, hne⟩ := hfull
  rw [Dict.get] at hms
  cases hget : Dict.get? merged (.str "tier_routing") with
  | none =>
    rw [hget] at hms
    cases hms
  | some v =>
    rw [hget] at hms
    exact ⟨ms, hms, hne⟩

theorem Sound.applyCapabilities {ov merged out : Dict} (h : Sound merged)
    (hout : applyCapabilities ov merged = some out) : Sound out := by
  rw [Plan.applyCapabilities] at hout
  split at hout
  · obtain rfl : merged = out := Option.some.inj hout
    exact h
  · simp only [Option.bind_eq_bind, Option.bind_eq_some_iff] at hout
    obtain ⟨base, hbase, narrowed, hnarrowed, hout⟩ := hout
    obtain rfl := Option.some.inj hout
    obtain ⟨ms, hms, hne⟩ := h.full "capabilities" (by decide)
    rw [IsFull.or ⟨ms, hms, hne⟩, hms] at hbase
    obtain rfl : ms = base := Option.some.inj hbase
    refine h.set "capabilities" fun _ => ⟨narrowed, rfl, ?_⟩
    rw [capabilitiesNarrow] at hnarrowed
    split at hnarrowed
    · simp only [Option.bind_eq_bind, Option.bind_eq_some_iff] at hnarrowed
      obtain ⟨_, -, _, -, grants, -, hnarrowed⟩ := hnarrowed
      obtain rfl := Option.some.inj hnarrowed
      exact set_ne_nil ms _ _
    · obtain rfl := Option.some.inj hnarrowed
      exact hne

theorem respected_sound : Respected fun merged out => Sound merged → Sound out where
  refl _ h := h
  trans hab hbc h := hbc (hab h)
  phases hout h := h.applyPhases hout
  project_types hout h := h.applyProjectTypes hout
  tier_routing hout h := h.applyTierRouting hout
  gates hout h := h.applyGates hout
  capabilities hout h := h.applyCapabilities hout

/-! ## The dump of a validated manifest -/

/-- No section is empty. -/
structure PipelineManifest.Full (m : PipelineManifest) : Prop where
  project_types : m.projectTypes ≠ []
  tier_routing : m.tierRouting ≠ []
  overrides : m.overrides ≠ []
  capabilities : m.capabilities ≠ []
  audit : m.audit ≠ []

theorem stringKeys_of_stringKeyed {v : PyValue} {d : Dict} (h : stringKeyed v = some d) :
    StringKeys d := by
  simp only [stringKeyed, Option.bind_eq_bind, Option.bind_eq_some_iff] at h
  obtain ⟨ms, -, h⟩ := h
  split at h
  · rename_i hall
    obtain rfl : ms = d := Option.some.inj h
    intro m hm
    have hstr := List.all_eq_true.mp hall m hm
    split at hstr
    · rename_i s hs
      exact ⟨s, hs⟩
    · cases hstr
  · cases h

theorem get?_of_stringField {merged d : Dict} {key : String}
    (h : stringField merged key = some d) (hne : d ≠ []) :
    Dict.get? merged (.str key) = some (.dict d) := by
  have hd := get_of_stringKeyed h
  cases hget : Dict.get? merged (.str key) with
  | none =>
    rw [hget] at hd
    exact absurd (PyValue.dict.inj hd).symm hne
  | some v =>
    rw [hget] at hd
    exact congrArg some hd

theorem get?_of_get {merged : Dict} {k : Atom} {v : PyValue} (h : Dict.get merged k = v)
    (hv : v ≠ .none) : Dict.get? merged k = some v := by
  rw [Dict.get] at h
  cases hget : Dict.get? merged k with
  | none =>
    rw [hget] at h
    exact absurd h.symm hv
  | some w =>
    rw [hget] at h
    exact congrArg some h

theorem phases_of_mapM {phases : List PyValue} {ds : List Dict}
    (h : phases.mapM stringKeyed = some ds) : phases = ds.map .dict := by
  induction phases generalizing ds with
  | nil =>
    obtain rfl : [] = ds := by simpa using h
    rfl
  | cons p ps ih =>
    simp only [List.mapM_cons, Option.bind_eq_bind, Option.bind_eq_some_iff] at h
    obtain ⟨d, hd, ds', hds, h⟩ := h
    obtain rfl : d :: ds' = ds := Option.some.inj h
    rw [get_of_stringKeyed hd, ih hds]
    rfl

/-- The fields of a validated manifest, where they come from. -/
structure ValidatedFrom (merged : Dict) (m : PipelineManifest) : Prop where
  strings : StringKeys merged
  fields : m.Full → ∀ f ∈ m.fields, Dict.get? merged (.str f.1) = some f.2
  extra : m.extra = merged.filter fun i => !isField (bodyFields ++ derivedFields) i.1

theorem validatedFrom {merged : Dict} {version : String} {chain : List String}
    {m : PipelineManifest} (h : validated merged version chain = some m) :
    ValidatedFrom merged m ∧ m.resolvedVersion = version := by
  have hread := validated_some h
  refine ⟨⟨stringKeys_of_stringKeyed hread.strings, fun hfull f hf => ?_, hread.extra⟩,
    hread.resolved⟩
  simp only [PipelineManifest.fields, List.mem_cons, List.not_mem_nil, or_false] at hf
  rcases hf with rfl | rfl | rfl | rfl | rfl | rfl | rfl | rfl
  · exact get?_of_get hread.version_item nofun
  · exact get?_of_get hread.org_bundle nofun
  · obtain ⟨xs, hphases, hmap⟩ := hread.phases
    rw [phases_of_mapM hmap] at hphases
    exact get?_of_get hphases nofun
  · exact get?_of_stringField hread.project_types hfull.project_types
  · exact get?_of_stringField hread.tier_routing hfull.tier_routing
  · exact get?_of_stringField hread.overrides hfull.overrides
  · exact get?_of_stringField hread.capabilities hfull.capabilities
  · exact get?_of_stringField hread.audit hfull.audit

theorem isField_str (names : List String) (s : String) :
    isField names (.str s) = true ↔ s ∈ names := by
  simp [isField]

theorem fields_names (m : PipelineManifest) : m.fields.map Prod.fst = bodyFields := rfl

theorem stringKeys_body {merged : Dict} {m : PipelineManifest} (h : ValidatedFrom merged m) :
    StringKeys m.body := by
  intro i hi
  rcases List.mem_append.mp hi with hi | hi
  · obtain ⟨f, -, rfl⟩ := List.mem_map.mp hi
    exact ⟨f.1, rfl⟩
  · rw [h.extra] at hi
    exact h.strings i (List.mem_filter.mp hi).1

theorem nodup_body {merged : Dict} {m : PipelineManifest} (h : ValidatedFrom merged m)
    (hd : (merged.map Prod.fst).Nodup) : (m.body.map Prod.fst).Nodup := by
  have hfields : (m.fields.map fun f => (Atom.str f.1, f.2)).map Prod.fst =
      bodyFields.map Atom.str := rfl
  rw [PipelineManifest.body, List.map_append, hfields, h.extra, List.nodup_append]
  refine ⟨by decide, (List.filter_sublist.map Prod.fst).nodup hd, ?_⟩
  rintro a ha b hb rfl
  obtain ⟨s, hs, rfl⟩ := List.mem_map.mp ha
  obtain ⟨i, hi, hkey⟩ := List.mem_map.mp hb
  have hno := (List.mem_filter.mp hi).2
  rw [hkey, Bool.not_eq_true', ← Bool.not_eq_true, isField_str] at hno
  exact hno (List.mem_append_left _ hs)

/-- A validated manifest has the items of the dictionary, but for the derived fields. -/
theorem body_perm {merged : Dict} {m : PipelineManifest} (h : ValidatedFrom merged m)
    (hfull : m.Full) (hd : (merged.map Prod.fst).Nodup) : m.body.Perm (pipelineBody merged) := by
  have hitems : ∀ s v, (Atom.str s, v) ∈ m.body ↔ (Atom.str s, v) ∈ pipelineBody merged := by
    intro s v
    have hfield : ∀ w, (s, w) ∈ m.fields → (Atom.str s, w) ∈ merged :=
      fun w hw => (get?_eq_some_iff hd s w).mp (h.fields hfull (s, w) hw)
    have hnames : s ∈ bodyFields ↔ ∃ w, (s, w) ∈ m.fields := by
      rw [← fields_names m, List.mem_map]
      exact ⟨fun ⟨f, hf, hs⟩ => ⟨f.2, hs ▸ hf⟩, fun ⟨w, hw⟩ => ⟨(s, w), hw, rfl⟩⟩
    have hderived : s ∈ bodyFields → s ∉ derivedFields := by
      have hdisjoint : ∀ s ∈ bodyFields, s ∉ derivedFields := by decide
      exact hdisjoint s
    have hbody : (Atom.str s, v) ∈ m.body ↔ (s, v) ∈ m.fields ∨ (Atom.str s, v) ∈ m.extra := by
      rw [PipelineManifest.body, List.mem_append, List.mem_map]
      refine or_congr_left ⟨?_, fun hv => ⟨(s, v), hv, rfl⟩⟩
      rintro ⟨f, hf, heq⟩
      obtain ⟨hs, hv⟩ := Prod.mk.inj heq
      obtain rfl := Atom.str.inj hs
      exact hv ▸ hf
    rw [hbody, h.extra, pipelineBody, List.mem_filter, List.mem_filter]
    simp only [Bool.not_eq_true', ← Bool.not_eq_true, isField_str, List.mem_append]
    constructor
    · rintro (hf | ⟨hmem, hno⟩)
      · exact ⟨hfield v hf, hderived (hnames.mpr ⟨v, hf⟩)⟩
      · exact ⟨hmem, fun hs => hno (Or.inr hs)⟩
    · rintro ⟨hmem, hno⟩
      by_cases hs : s ∈ bodyFields
      · obtain ⟨w, hw⟩ := hnames.mp hs
        have hget := (get?_eq_some_iff hd s v).mpr hmem
        rw [(get?_eq_some_iff hd s w).mpr (hfield w hw)] at hget
        obtain rfl := Option.some.inj hget
        exact Or.inl hw
      · exact Or.inr ⟨hmem, fun hor => hor.elim hs hno⟩
  have hnodup : (pipelineBody merged).Nodup := (List.Nodup.of_map Prod.fst hd).filter _
  refine (List.perm_ext_iff_of_nodup (List.Nodup.of_map Prod.fst (nodup_body h hd)) hnodup).mpr ?_
  rintro ⟨k, v⟩
  constructor
  · intro hi
    obtain ⟨s, rfl⟩ := stringKeys_body h _ hi
    exact (hitems s v).mp hi
  · intro hi
    obtain ⟨s, rfl⟩ := h.strings _ (List.mem_filter.mp hi).1
    exact (hitems s v).mpr hi

theorem full_of_sound {merged : Dict} (h : Sound merged) {version : String} {chain : List String}
    {m : PipelineManifest} (hm : validated merged version chain = some m) : m.Full := by
  have hsection : ∀ key ∈ sections, ∀ d, stringField merged key = some d → d ≠ [] := by
    rintro key hkey d hd rfl
    obtain ⟨ms, hms, hne⟩ := h.full key hkey
    have hempty := get_of_stringKeyed hd
    rw [Dict.get] at hms
    cases hget : Dict.get? merged (.str key) with
    | none =>
      rw [hget] at hms
      cases hms
    | some v =>
      rw [hget, Option.getD_some] at hms hempty
      exact hne (PyValue.dict.inj (hms.symm.trans hempty))
  have hread := validated_some hm
  exact ⟨hsection "project_types" (by decide) _ hread.project_types,
    hsection "tier_routing" (by decide) _ hread.tier_routing,
    hsection "overrides" (by decide) _ hread.overrides,
    hsection "capabilities" (by decide) _ hread.capabilities,
    hsection "audit" (by decide) _ hread.audit⟩

theorem derived_notMem_body {merged : Dict} {m : PipelineManifest} (h : ValidatedFrom merged m)
    {key : String} (hkey : key ∈ derivedFields) : Atom.str key ∉ m.body.map Prod.fst := by
  intro hmem
  obtain ⟨i, hi, heq⟩ := List.mem_map.mp hmem
  rcases List.mem_append.mp hi with hi | hi
  · obtain ⟨f, hf, rfl⟩ := List.mem_map.mp hi
    have hfield : f.1 ∈ bodyFields := fields_names m ▸ List.mem_map_of_mem hf
    rw [Atom.str.inj heq] at hfield
    have hdisjoint : ∀ s ∈ derivedFields, s ∉ bodyFields := by decide
    exact hdisjoint key hkey hfield
  · rw [h.extra] at hi
    have hno := (List.mem_filter.mp hi).2
    rw [heq, Bool.not_eq_true', ← Bool.not_eq_true, isField_str] at hno
    exact hno (List.mem_append_right _ hkey)

/-- What is known of a manifest that `load_pipeline` returns. -/
structure Loaded (reprOf : PyValue → String) (m : PipelineManifest) : Prop where
  full : m.Full
  strings : StringKeys m.body
  nodup : (m.body.map Prod.fst).Nodup
  derived : ∀ key ∈ derivedFields, Atom.str key ∉ m.body.map Prod.fst
  version : ∃ w, toJson reprOf (.dict m.body) = some w ∧
    m.resolvedVersion = "sha256:" ++ hexdigest (Json.encode w)

theorem loaded {reprOf : PyValue → String} {home : SpineHome} {projectId bundleId : String}
    {projectOverrides : PyValue} {m : PipelineManifest}
    (h : loadPipeline reprOf home projectId bundleId projectOverrides = some m) :
    Loaded reprOf m := by
  simp only [loadPipeline, Option.bind_eq_bind, Option.bind_eq_some_iff] at h
  obtain ⟨bundle, -, teamOv, -, ⟨merged, chain⟩, hmerged, version, hversion, hvalid⟩ := h
  have hsound : Sound merged := respected_sound.mergedPipeline hmerged sound_default
  have hfull := full_of_sound hsound hvalid
  obtain ⟨hfrom, hresolved⟩ := validatedFrom hvalid
  have hstrings := stringKeys_body hfrom
  have hnodup := nodup_body hfrom hsound.nodup
  refine ⟨hfull, hstrings, hnodup, fun _ hkey => derived_notMem_body hfrom hkey, ?_⟩
  rw [versionOf, dumps, Option.map_map] at hversion
  obtain ⟨w, hw, rfl⟩ := Option.map_eq_some_iff.mp hversion
  exact ⟨w, (toJson_dict_perm (body_perm hfrom hfull hsound.nodup) hstrings hnodup).trans hw,
    hresolved⟩

/-! ## The two versions -/

section
variable {reprOf : PyValue → String} {copySet : List Atom → List Atom}

theorem rebuild_body (m : PipelineManifest) :
    rebuild copySet (.dict m.body) = .dict (modelDump copySet m) := rfl

theorem exists_toJson_modelDump {m : PipelineManifest} (h : Loaded reprOf m) :
    ∃ w, toJson reprOf (.dict (modelDump copySet m)) = some w := by
  obtain ⟨w, hw, -⟩ := h.version
  exact toJson_rebuild hw

theorem computePipelineVersion_eq {m : PipelineManifest} {w : Value}
    (h : toJson reprOf (.dict (modelDump copySet m)) = some w) :
    computePipelineVersion reprOf copySet m = some ("sha256:" ++ hexdigest (Json.encode w)) := by
  rw [computePipelineVersion, versionOf, dumps, h]
  rfl

end

end SpineFormal.Plan
