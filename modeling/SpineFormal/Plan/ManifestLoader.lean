import SpineFormal.Base.Sha256
import SpineFormal.Plan.DefaultPipeline
import SpineFormal.Py.Dumps

/-!
# The effective pipeline

`plan/pipeline/manifest_loader.py`: the shipped pipeline with the org bundle, the team's
overlay and the project's overlay merged into it in this order. Overlays are whatever their
files hold; an exception is `none`.
-/

namespace SpineFormal.Plan

open Py
set_option autoImplicit false

/-! ## Merging -/

mutual
/-- One item of `_deep_merge`. -/
def mergeItem (dst : PyValue) (k : Atom) : PyValue → Option PyValue
  | .dict vs => do
    match Dict.get (← dst.asDict) k with
    | .dict inner =>
      let merged ← mergeItems (.dict inner) vs
      dst.setItem k merged
    | _ => dst.setItem k (.dict vs)
  | v => dst.setItem k v
def mergeItems (dst : PyValue) : Dict → Option PyValue
  | [] => some dst
  | (k, v) :: src => do
    let dst' ← mergeItem dst k v
    mergeItems dst' src
end

def deepMerge (dst src : PyValue) : Option PyValue :=
  if src.truthy then do mergeItems dst (← src.asDict) else some dst

/-- `p.get("id")`. -/
def idOf (p : PyValue) : Option PyValue := do return Dict.get (← p.asDict) (.str "id")

/-- The phases under an id are changed, the others kept. -/
def modifyWhere (pid : Atom) (change : PyValue → Option PyValue) (phases : List PyValue) :
    Option (List PyValue) :=
  phases.mapM fun p => do
    if (← idOf p).eq (.atom pid) then change p else return p

def hasIdOf (new : PyValue) : List PyValue → Option Bool
  | [] => some false
  | p :: ps => do
    if (← idOf p).eq (← idOf new) then return true else hasIdOf new ps

/-- `p.get("id") not in set((po or {}).get("remove") or [])`. -/
def staysIn (po : Dict) (p : PyValue) : Option Bool := do
  let pid ← idOf p
  let removed ← ((Dict.get po (.str "remove")).or (.list [])).toSet
  return !(← pid.isIn removed)

def phasesApply (base : List PyValue) (po : Dict) : Option (List PyValue) := do
  let kept ← keepIf (staysIn po) base
  let modify ← ((Dict.get po (.str "modify")).or (.dict [])).asDict
  let modified ← modify.foldlM (fun out m => modifyWhere m.1 (deepMerge · m.2) out) kept
  let append ← ((Dict.get po (.str "append")).or (.list [])).iter
  append.foldlM (fun out new => do if ← hasIdOf new out then return out else return out ++ [new])
    modified

/-- `p.setdefault("gate", {}); _deep_merge(p["gate"], gate_patch)`. -/
def patchGate (patch p : PyValue) : Option PyValue := do
  let d ← p.asDict
  let gate ← deepMerge ((Dict.get? d (.str "gate")).getD (.dict [])) patch
  return .dict (Dict.set d (.str "gate") gate)

def gatesApply (phases : List PyValue) (gates : Dict) : Option (List PyValue) :=
  gates.foldlM (fun out m => modifyWhere m.1 (patchGate m.2) out) phases

/-- `out[tid] = {k: v for k, v in new.items() if k != "id"}` for an id that is new. -/
def appendProjectType (out : Dict) (new : PyValue) : Option Dict :=
  match new with
  | .dict d =>
    let tid := Dict.get d (.str "id")
    if tid.truthy then do
      let key ← tid.asKey
      if (Dict.get? out key).isSome then return out
      else return Dict.set out key (.dict (d.filter fun m => !m.1.same (.str "id")))
    else some out
  | _ => some out

def modifyProjectType (out : Dict) (m : Atom × PyValue) : Option Dict := do
  let merged ← deepMerge ((Dict.get? out m.1).getD (.dict [])) m.2
  return Dict.set out m.1 merged

def projectTypesApply (base po : Dict) : Option Dict := do
  let append ← ((Dict.get po (.str "append")).or (.list [])).iter
  let appended ← append.foldlM appendProjectType base
  let modify ← ((Dict.get po (.str "modify")).or (.dict [])).asDict
  modify.foldlM modifyProjectType appended

/-- The principals of one capability, filtered when the overlay declares it. -/
def narrowedPrincipals (ovGrants : PyValue) (m : Atom × PyValue) : Option (Atom × PyValue) := do
  let base ← (m.2.or (.list [])).iter
  if ← ovGrants.contains m.1 then
    let declared ← ovGrants.item m.1
    let ovSet ← (declared.or (.list [])).toSet
    let kept ← keepIf (PyValue.isIn · ovSet) base
    return (m.1, .list kept)
  else return (m.1, .list base)

def capabilitiesNarrow (base : Dict) (overlay : PyValue) : Option Dict :=
  if overlay.truthy then do
    let baseGrants ← ((Dict.get base (.str "grants")).or (.dict [])).asDict
    let ovGrants := (Dict.get (← overlay.asDict) (.str "grants")).or (.dict [])
    let narrowed ← baseGrants.mapM (narrowedPrincipals ovGrants)
    return Dict.set base (.str "grants") (.dict narrowed)
  else some base

/-! ## Overlays -/

/-- `if po.get(key): …`. -/
def whenGiven (po : Dict) (key : String) (apply : PyValue → Dict → Option Dict) (merged : Dict) :
    Option Dict :=
  if (Dict.get po (.str key)).truthy then apply (Dict.get po (.str key)) merged else some merged

def applyPhases (po : PyValue) (merged : Dict) : Option Dict := do
  let base ← ((Dict.get merged (.str "phases")).or (.list [])).iter
  let phases ← phasesApply base (← po.asDict)
  return Dict.set merged (.str "phases") (.list phases)

def applyProjectTypes (po : PyValue) (merged : Dict) : Option Dict := do
  let base ← ((Dict.get merged (.str "project_types")).or (.dict [])).asDict
  let types ← projectTypesApply base (← po.asDict)
  return Dict.set merged (.str "project_types") (.dict types)

def applyTierRouting (po : PyValue) (merged : Dict) : Option Dict := do
  let routing ← deepMerge ((Dict.get? merged (.str "tier_routing")).getD (.dict [])) po
  return Dict.set merged (.str "tier_routing") routing

def applyGates (po : PyValue) (merged : Dict) : Option Dict := do
  let base ← ((Dict.get merged (.str "phases")).or (.list [])).iter
  let phases ← gatesApply base (← po.asDict)
  return Dict.set merged (.str "phases") (.list phases)

/-- `if "capabilities" in overlay: …`. -/
def applyCapabilities (overlay merged : Dict) : Option Dict :=
  match Dict.get? overlay (.str "capabilities") with
  | none => some merged
  | some caps => do
    let base ← ((Dict.get merged (.str "capabilities")).or (.dict [])).asDict
    return Dict.set merged (.str "capabilities") (.dict (← capabilitiesNarrow base caps))

def applyOverlay (overlay : PyValue) (chainTag : String) (state : Dict × List String) :
    Option (Dict × List String) :=
  if overlay.truthy then do
    let ov ← overlay.asDict
    let po ← ((Dict.get ov (.str "pipeline_overrides")).or overlay).asDict
    let merged ← whenGiven po "phases" applyPhases state.1
    let merged ← whenGiven po "project_types" applyProjectTypes merged
    let merged ← whenGiven po "tier_routing" applyTierRouting merged
    let merged ← whenGiven po "gates" applyGates merged
    let merged ← applyCapabilities ov merged
    return (merged, state.2 ++ [chainTag])
  else some state

/-! ## Files -/

/-- What lies at a path below the Spine home; a document may not be readable. -/
inductive File where
  | absent
  | unreadable
  | yaml (document : PyValue)

abbrev SpineHome := List String → File

def readYaml : File → Option PyValue
  | .absent => some (.dict [])
  | .unreadable => none
  | .yaml document => some (document.or (.dict []))

def activeBundle (home : SpineHome) (bundleId : String) : Option PyValue :=
  if bundleId ≠ "" then readYaml (home ["bundles", bundleId, "bundle.yaml"])
  else readYaml (home ["active", "bundle.yaml"])

def teamOverrides (home : SpineHome) (projectId : String) : Option PyValue :=
  if projectId ≠ "" then do
    let projMeta ← readYaml (home ["active", "project", projectId, "meta.yaml"])
    let teamId :=
      match projMeta with
      | .dict d => Dict.get d (.str "team_id")
      | _ => .none
    if teamId.truthy then
      match teamId with
      | .atom (.str t) => readYaml (home ["active", "team", t, "pipeline_overrides.yaml"])
      | _ => none
    else return .dict []
  else some (.dict [])

/-! ## The manifest -/

structure PipelineManifest where
  version : Int
  orgBundle : String
  phases : List Dict
  projectTypes : Dict
  tierRouting : Dict
  overrides : Dict
  capabilities : Dict
  audit : Dict
  /-- What the model allows besides its fields. -/
  extra : Dict
  resolvedVersion : String
  inheritanceChain : List String

/-- `dict[str, Any]`. -/
def stringKeyed (v : PyValue) : Option Dict := do
  let d ← v.asDict
  if d.all fun m => m.1 matches .str _ then return d else none

theorem get_of_stringKeyed {v : PyValue} {d : Dict} (h : stringKeyed v = some d) : v = .dict d := by
  simp only [stringKeyed, Option.bind_eq_bind, Option.bind_eq_some_iff] at h
  obtain ⟨ms, hms, h⟩ := h
  split at h
  · obtain rfl : ms = d := Option.some.inj h
    cases v with
    | dict ns => rw [Option.some.inj hms]
    | _ => cases hms
  · cases h

def stringField (merged : Dict) (key : String) : Option Dict :=
  stringKeyed ((Dict.get? merged (.str key)).getD (.dict []))

def bodyFields : List String :=
  ["version", "org_bundle", "phases", "project_types", "tier_routing", "overrides",
   "capabilities", "audit"]

def derivedFields : List String := ["resolved_version", "inheritance_chain"]

def isField (names : List String) (k : Atom) : Bool := names.any fun name => k.same (.str name)

/-- `PipelineManifest(**merged)` with the two derived fields. No overlay reaches `version`
and `org_bundle`, so nothing has to be coerced. -/
def validated (merged : Dict) (resolvedVersion : String) (chain : List String) :
    Option PipelineManifest := do
  let fields ← stringKeyed (.dict merged)
  let .atom (.int version) := Dict.get fields (.str "version") | none
  let .atom (.str orgBundle) := Dict.get fields (.str "org_bundle") | none
  let .list phases := Dict.get fields (.str "phases") | none
  return {
    version, orgBundle
    phases := ← phases.mapM stringKeyed
    projectTypes := ← stringField fields "project_types"
    tierRouting := ← stringField fields "tier_routing"
    overrides := ← stringField fields "overrides"
    capabilities := ← stringField fields "capabilities"
    audit := ← stringField fields "audit"
    extra := fields.filter fun m => !isField (bodyFields ++ derivedFields) m.1
    resolvedVersion
    inheritanceChain := chain }

/-- What a validated manifest was read from. -/
structure ReadFrom (merged : Dict) (version : String) (m : PipelineManifest) : Prop where
  strings : stringKeyed (.dict merged) = some merged
  version_item : Dict.get merged (.str "version") = .atom (.int m.version)
  org_bundle : Dict.get merged (.str "org_bundle") = .text m.orgBundle
  phases : ∃ xs, Dict.get merged (.str "phases") = .list xs ∧ xs.mapM stringKeyed = some m.phases
  project_types : stringField merged "project_types" = some m.projectTypes
  tier_routing : stringField merged "tier_routing" = some m.tierRouting
  overrides : stringField merged "overrides" = some m.overrides
  capabilities : stringField merged "capabilities" = some m.capabilities
  audit : stringField merged "audit" = some m.audit
  extra : m.extra = merged.filter fun i => !isField (bodyFields ++ derivedFields) i.1
  resolved : m.resolvedVersion = version

theorem validated_some {merged : Dict} {version : String} {chain : List String}
    {m : PipelineManifest} (h : validated merged version chain = some m) :
    ReadFrom merged version m := by
  simp only [validated, Option.bind_eq_bind, Option.bind_eq_some_iff] at h
  obtain ⟨fields, hfields, h⟩ := h
  obtain rfl : merged = fields := PyValue.dict.inj (get_of_stringKeyed hfields)
  split at h
  · rename_i hversion
    split at h
    · rename_i horg
      split at h
      · rename_i xs hphases
        simp only [Option.bind_eq_some_iff] at h
        obtain ⟨phases, hmap, types, htypes, routing, hrouting, overrides, hoverrides,
          capabilities, hcapabilities, audit, haudit, h⟩ := h
        obtain rfl := Option.some.inj h
        exact ⟨hfields, hversion, horg, ⟨xs, hphases, hmap⟩, htypes, hrouting, hoverrides,
          hcapabilities, haudit, rfl, rfl⟩
      · cases h
    · cases h
  · cases h

section
variable (reprOf : PyValue → String)

/-- The tag of the bundle: `(bundle.get("identity") or {}).get("bundle_id") or …`. -/
def bundleTag (bundle : PyValue) (bundleId : String) : Option String := do
  let identity ← ((Dict.get (← bundle.asDict) (.str "identity")).or (.dict [])).asDict
  let fallback := PyValue.or (.text bundleId) (.text "active")
  return "org-bundle:" ++ pyStr reprOf ((Dict.get identity (.str "bundle_id")).or fallback)

def chainStart : List String := ["default:sdlc-pipeline-default.yaml"]

def applyBundle (bundle : PyValue) (bundleId : String) (state : Dict × List String) :
    Option (Dict × List String) :=
  if bundle.truthy then do applyOverlay bundle (← bundleTag reprOf bundle bundleId) state
  else some state

/-- The three overlays, one after the other. -/
def mergedPipeline (bundle teamOv projectOverrides : PyValue) (projectId bundleId : String) :
    Option (Dict × List String) := do
  let state ← applyBundle reprOf bundle bundleId (sdlcPipelineDefault, chainStart)
  let state ← applyOverlay teamOv ("team:" ++ projectId) state
  applyOverlay projectOverrides ("project:" ++ if projectId ≠ "" then projectId else "inline") state

/-- What is hashed: everything but the two derived fields. -/
def pipelineBody (merged : Dict) : Dict := merged.filter fun m => !isField derivedFields m.1

def versionOf (body : Dict) : Option String :=
  (dumps reprOf (.dict body)).map fun canonical => "sha256:" ++ hexdigest canonical

/-- `load_pipeline`; an id that is not given is `""`, overrides not given are `None`. -/
def loadPipeline (home : SpineHome) (projectId bundleId : String) (projectOverrides : PyValue) :
    Option PipelineManifest := do
  let bundle ← activeBundle home bundleId
  let teamOv ← teamOverrides home projectId
  let (merged, chain) ← mergedPipeline reprOf bundle teamOv projectOverrides projectId bundleId
  let version ← versionOf reprOf (pipelineBody merged)
  validated merged version chain

end

/-! ## What holds across overlays -/

/-- A preorder between merged pipelines that every applier respects. -/
structure Respected (R : Dict → Dict → Prop) : Prop where
  refl : ∀ merged : Dict, R merged merged
  trans : ∀ {a b c : Dict}, R a b → R b c → R a c
  phases : ∀ {po : PyValue} {merged out : Dict}, applyPhases po merged = some out → R merged out
  project_types : ∀ {po : PyValue} {merged out : Dict},
    applyProjectTypes po merged = some out → R merged out
  tier_routing : ∀ {po : PyValue} {merged out : Dict},
    applyTierRouting po merged = some out → R merged out
  gates : ∀ {po : PyValue} {merged out : Dict}, applyGates po merged = some out → R merged out
  capabilities : ∀ {ov merged out : Dict}, applyCapabilities ov merged = some out → R merged out

section
variable {R : Dict → Dict → Prop}

theorem Respected.whenGiven (hR : Respected R) {po merged out : Dict} {key : String}
    {apply : PyValue → Dict → Option Dict}
    (happly : ∀ v out, apply v merged = some out → R merged out)
    (h : whenGiven po key apply merged = some out) : R merged out := by
  rw [Plan.whenGiven] at h
  split at h
  · exact happly _ out h
  · obtain rfl : merged = out := Option.some.inj h
    exact hR.refl merged

theorem Respected.applyOverlay (hR : Respected R) {overlay : PyValue} {tag : String}
    {state out : Dict × List String} (h : applyOverlay overlay tag state = some out) :
    R state.1 out.1 := by
  rw [Plan.applyOverlay] at h
  split at h
  · simp only [Option.bind_eq_bind, Option.bind_eq_some_iff] at h
    obtain ⟨_, -, _, -, a, ha, b, hb, c, hc, d, hd, e, he, h⟩ := h
    obtain rfl := Option.some.inj h
    have h₁ := hR.whenGiven (fun _ _ => hR.phases) ha
    have h₂ := hR.whenGiven (fun _ _ => hR.project_types) hb
    have h₃ := hR.whenGiven (fun _ _ => hR.tier_routing) hc
    have h₄ := hR.whenGiven (fun _ _ => hR.gates) hd
    exact hR.trans (hR.trans (hR.trans (hR.trans h₁ h₂) h₃) h₄) (hR.capabilities he)
  · obtain rfl := Option.some.inj h
    exact hR.refl state.1

/-- From the shipped pipeline through the three overlays. -/
theorem Respected.mergedPipeline (hR : Respected R) {reprOf : PyValue → String}
    {bundle teamOv projectOverrides : PyValue} {projectId bundleId : String}
    {out : Dict × List String}
    (h : mergedPipeline reprOf bundle teamOv projectOverrides projectId bundleId = some out) :
    R sdlcPipelineDefault out.1 := by
  simp only [Plan.mergedPipeline, Option.bind_eq_bind, Option.bind_eq_some_iff] at h
  obtain ⟨first, hfirst, second, hsecond, hthird⟩ := h
  have hbundle : R sdlcPipelineDefault first.1 := by
    rw [applyBundle] at hfirst
    split at hfirst
    · simp only [Option.bind_eq_bind, Option.bind_eq_some_iff] at hfirst
      obtain ⟨tag, -, hfirst⟩ := hfirst
      exact hR.applyOverlay hfirst
    · obtain rfl := Option.some.inj hfirst
      exact hR.refl _
  exact hR.trans (hR.trans hbundle (hR.applyOverlay hsecond)) (hR.applyOverlay hthird)

end

end SpineFormal.Plan
