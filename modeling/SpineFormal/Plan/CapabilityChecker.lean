import SpineFormal.Plan.ManifestLoader

/-!
# Who may change the pipeline

`plan/pipeline/capability_checker.py`, asked about the pipeline that `load_pipeline` returns.
-/

namespace SpineFormal.Plan

open Py
set_option autoImplicit false

def knownCapabilities : List String :=
  ["can_modify_sdlc_pipeline", "can_modify_cost_policy", "can_grant_capabilities",
   "can_override_security"]

def principalKinds : List (List Char) := ["role".toList, "user".toList, "group".toList]

/-- `s.partition(":")`, when there is a colon. -/
def splitColon (s : List Char) : Option (List Char × List Char) :=
  if ':' ∈ s then some (s.takeWhile (· ≠ ':'), (s.dropWhile (· ≠ ':')).drop 1) else none

/-- `_parse_actor`; `none` is `CapabilityDenied`. -/
def parseActor (actor : String) : Option (List Char × List Char) :=
  if actor = "" then none
  else
    match splitColon actor.toList with
    | some (kind, name) => if kind ∈ principalKinds then some (kind, name) else none
    | none => some ("user".toList, actor.toList)

/-- `[A-Za-z0-9_\-\*]`. -/
def isNameChar (c : Char) : Bool := c.isAlphanum || c = '_' || c = '-' || c = '*'

/-- `PRINCIPAL_RE.match`; `$` also stands before a final newline. -/
def principalRe (s : List Char) : Bool :=
  match splitColon s with
  | some (kind, name) =>
    let name' := if name.getLast? = some '\n' then name.dropLast else name
    kind ∈ principalKinds && name' ≠ [] && name'.all isNameChar
  | none => false

def principalMatches (actorKind actorName : List Char) (principal : String) : Bool :=
  principalRe principal.toList &&
    match splitColon principal.toList with
    | some (kind, name) => kind = actorKind && (name = "*".toList || name = actorName)
    | none => false

/-- One element of the principals; `none` is `TypeError` of the regular expression. -/
def matchesElement (actorKind actorName : List Char) : PyValue → Option Bool
  | .atom (.str p) => some (principalMatches actorKind actorName p)
  | _ => none

/-- `grants.get(capability) or []` of a `capabilities` section. -/
def grantedPrincipals (capabilities : Dict) (capability : String) : Option (List PyValue) := do
  let grants ← ((Dict.get capabilities (.str "grants")).or (.dict [])).asDict
  ((Dict.get grants (.str capability)).or (.list [])).iter

/-- `check_capability`; `none` is an exception. -/
def checkCapability (actor capability : String) (currentPipeline : PipelineManifest) :
    Option Bool :=
  if capability ∉ knownCapabilities then some false
  else
    match parseActor actor with
    | none => some false
    | some (actorKind, actorName) => do
      let principals ← grantedPrincipals currentPipeline.capabilities capability
      principals.anyM (matchesElement actorKind actorName)

/-! ## An overlay adds no principal -/

theorem iter_or_list (xs : List PyValue) : ((PyValue.list xs).or (.list [])).iter = some xs := by
  cases xs <;> rfl

theorem asDict_or_dict (ms : Dict) : ((PyValue.dict ms).or (.dict [])).asDict = some ms := by
  cases ms <;> rfl

/-- What narrowing leaves of one capability was listed before. -/
theorem narrowedPrincipals_sublist {ovGrants : PyValue} {m n : Atom × PyValue}
    (h : narrowedPrincipals ovGrants m = some n) :
    n.1 = m.1 ∧ ∃ kept base, n.2 = .list kept ∧ (m.2.or (.list [])).iter = some base ∧
      kept.Sublist base := by
  simp only [narrowedPrincipals, Option.bind_eq_bind, Option.bind_eq_some_iff] at h
  obtain ⟨base, hbase, declares, -, h⟩ := h
  cases declares with
  | true =>
    simp only [if_true, Option.bind_eq_some_iff] at h
    obtain ⟨_, -, _, -, kept, hkept, h⟩ := h
    obtain rfl : (m.1, .list kept) = n := Option.some.inj h
    exact ⟨rfl, kept, base, rfl, hbase, keepIf_sublist hkept⟩
  | false =>
    obtain rfl : (m.1, .list base) = n := by simpa using h
    exact ⟨rfl, base, base, rfl, hbase, List.Sublist.refl base⟩

theorem get?_narrowed {ovGrants : PyValue} {grants narrowed : Dict}
    (h : grants.mapM (narrowedPrincipals ovGrants) = some narrowed) (k : Atom) :
    (Dict.get? grants k = none ∧ Dict.get? narrowed k = none) ∨
      ∃ v kept base, Dict.get? grants k = some v ∧ Dict.get? narrowed k = some (.list kept) ∧
        (v.or (.list [])).iter = some base ∧ kept.Sublist base := by
  induction grants generalizing narrowed with
  | nil =>
    obtain rfl : [] = narrowed := by simpa using h
    exact Or.inl ⟨rfl, rfl⟩
  | cons m ms ih =>
    simp only [List.mapM_cons, Option.bind_eq_bind, Option.bind_eq_some_iff] at h
    obtain ⟨n, hn, ns, hns, h⟩ := h
    obtain rfl : n :: ns = narrowed := Option.some.inj h
    obtain ⟨hkey, kept, base, hkept, hbase, hsub⟩ := narrowedPrincipals_sublist hn
    simp only [Dict.get?, hkey]
    by_cases hk : m.1.same k = true
    · rw [if_pos hk, if_pos hk]
      exact Or.inr ⟨m.2, kept, base, rfl, by rw [hkept], hbase, hsub⟩
    · rw [if_neg hk, if_neg hk]
      exact ih hns

theorem capabilitiesNarrow_sublist {base out : Dict} {overlay : PyValue}
    (h : capabilitiesNarrow base overlay = some out) {capability : String} {qs : List PyValue}
    (hq : grantedPrincipals out capability = some qs) :
    ∃ ps, grantedPrincipals base capability = some ps ∧ qs.Sublist ps := by
  rw [capabilitiesNarrow] at h
  split at h
  · simp only [Option.bind_eq_bind, Option.bind_eq_some_iff] at h
    obtain ⟨baseGrants, hgrants, _, -, narrowed, hnarrowed, h⟩ := h
    obtain rfl : Dict.set base (.str "grants") (.dict narrowed) = out := Option.some.inj h
    simp only [grantedPrincipals, Dict.get_set_str, asDict_or_dict, hgrants, Option.bind_eq_bind,
      Option.bind_some] at hq ⊢
    rcases get?_narrowed hnarrowed (.str capability) with ⟨hnone, hnone'⟩ | hsome
    · rw [Dict.get, hnone'] at hq
      rw [Dict.get, hnone]
      exact ⟨qs, hq, List.Sublist.refl qs⟩
    · obtain ⟨v, kept, ps, hv, hkept, hps, hsub⟩ := hsome
      rw [Dict.get, hkept, Option.getD_some, iter_or_list] at hq
      obtain rfl : kept = qs := Option.some.inj hq
      rw [Dict.get, hv]
      exact ⟨ps, hps, hsub⟩
  · obtain rfl : base = out := Option.some.inj h
    exact ⟨qs, hq, List.Sublist.refl qs⟩

/-- The principals of a merged pipeline. -/
def effectivePrincipals (merged : Dict) (capability : String) : Option (List PyValue) := do
  let capabilities ← ((Dict.get merged (.str "capabilities")).or (.dict [])).asDict
  grantedPrincipals capabilities capability

/-- Whoever is listed in `merged'` was listed in `merged`. -/
def NeverWidens (merged merged' : Dict) : Prop :=
  ∀ capability qs, effectivePrincipals merged' capability = some qs →
    ∃ ps, effectivePrincipals merged capability = some ps ∧ qs.Sublist ps

theorem NeverWidens.refl (merged : Dict) : NeverWidens merged merged :=
  fun _ qs hq => ⟨qs, hq, List.Sublist.refl qs⟩

theorem NeverWidens.trans {a b c : Dict} (hab : NeverWidens a b) (hbc : NeverWidens b c) :
    NeverWidens a c := by
  intro capability rs hr
  obtain ⟨qs, hq, hrq⟩ := hbc capability rs hr
  obtain ⟨ps, hp, hqp⟩ := hab capability qs hq
  exact ⟨ps, hp, hrq.trans hqp⟩

/-- Another section of the pipeline has no principals. -/
theorem neverWidens_set (merged : Dict) {key : String} (h : key ≠ "capabilities") (v : PyValue) :
    NeverWidens merged (Dict.set merged (.str key) v) := by
  intro capability qs hq
  rw [effectivePrincipals, Dict.get_set_of_ne merged h] at hq
  exact ⟨qs, hq, List.Sublist.refl qs⟩

theorem neverWidens_applyPhases {po : PyValue} {merged out : Dict}
    (h : applyPhases po merged = some out) : NeverWidens merged out := by
  simp only [applyPhases, Option.bind_eq_bind, Option.bind_eq_some_iff] at h
  obtain ⟨_, -, _, -, phases, -, h⟩ := h
  obtain rfl := Option.some.inj h
  exact neverWidens_set merged (by decide) _

theorem neverWidens_applyProjectTypes {po : PyValue} {merged out : Dict}
    (h : applyProjectTypes po merged = some out) : NeverWidens merged out := by
  simp only [applyProjectTypes, Option.bind_eq_bind, Option.bind_eq_some_iff] at h
  obtain ⟨_, -, _, -, types, -, h⟩ := h
  obtain rfl := Option.some.inj h
  exact neverWidens_set merged (by decide) _

theorem neverWidens_applyTierRouting {po : PyValue} {merged out : Dict}
    (h : applyTierRouting po merged = some out) : NeverWidens merged out := by
  simp only [applyTierRouting, Option.bind_eq_bind, Option.bind_eq_some_iff] at h
  obtain ⟨routing, -, h⟩ := h
  obtain rfl := Option.some.inj h
  exact neverWidens_set merged (by decide) _

theorem neverWidens_applyGates {po : PyValue} {merged out : Dict}
    (h : applyGates po merged = some out) : NeverWidens merged out := by
  simp only [applyGates, Option.bind_eq_bind, Option.bind_eq_some_iff] at h
  obtain ⟨_, -, _, -, phases, -, h⟩ := h
  obtain rfl := Option.some.inj h
  exact neverWidens_set merged (by decide) _

theorem neverWidens_applyCapabilities {ov merged out : Dict}
    (h : applyCapabilities ov merged = some out) : NeverWidens merged out := by
  rw [applyCapabilities] at h
  split at h
  · obtain rfl : merged = out := Option.some.inj h
    exact NeverWidens.refl merged
  · simp only [Option.bind_eq_bind, Option.bind_eq_some_iff] at h
    obtain ⟨base, hbase, narrowed, hnarrowed, h⟩ := h
    obtain rfl := Option.some.inj h
    intro capability qs hq
    rw [effectivePrincipals, Dict.get_set_str, asDict_or_dict] at hq
    obtain ⟨ps, hps, hsub⟩ := capabilitiesNarrow_sublist hnarrowed hq
    refine ⟨ps, ?_, hsub⟩
    rw [effectivePrincipals, hbase]
    exact hps

theorem respected_neverWidens : Respected NeverWidens where
  refl := NeverWidens.refl
  trans := NeverWidens.trans
  phases := neverWidens_applyPhases
  project_types := neverWidens_applyProjectTypes
  tier_routing := neverWidens_applyTierRouting
  gates := neverWidens_applyGates
  capabilities := neverWidens_applyCapabilities

/-! ## The shipped pipeline grants nothing -/

theorem effectivePrincipals_default (capability : String) :
    effectivePrincipals sdlcPipelineDefault capability = some [] := by
  have hcaps : Dict.get sdlcPipelineDefault (.str "capabilities") = .dict defaultCapabilities := rfl
  have hgrants : Dict.get defaultCapabilities (.str "grants") = .none := rfl
  rw [effectivePrincipals, hcaps, asDict_or_dict]
  simp only [Option.bind_eq_bind, Option.bind_some, grantedPrincipals, hgrants]
  rfl

section
variable {reprOf : PyValue → String}

theorem get_of_stringField {merged d : Dict} {key : String}
    (h : stringField merged key = some d) :
    ((Dict.get merged (.str key)).or (.dict [])).asDict = some d := by
  rw [stringField] at h
  rw [Dict.get]
  cases hget : Dict.get? merged (.str key) with
  | none =>
    rw [hget, Option.getD_none] at h
    obtain rfl : [] = d := Option.some.inj h
    rfl
  | some v =>
    rw [hget, Option.getD_some] at h
    rw [Option.getD_some, get_of_stringKeyed h, asDict_or_dict]

theorem capabilities_of_validated {merged : Dict} {version : String} {chain : List String}
    {m : PipelineManifest} (h : validated merged version chain = some m) (capability : String) :
    grantedPrincipals m.capabilities capability = effectivePrincipals merged capability := by
  rw [effectivePrincipals, get_of_stringField (validated_some h).capabilities]
  rfl

/-- No bundle and no overlay makes the check say yes. -/
theorem checkCapability_denied {home : SpineHome} {projectId bundleId : String}
    {projectOverrides : PyValue} {m : PipelineManifest}
    (h : loadPipeline reprOf home projectId bundleId projectOverrides = some m)
    (actor capability : String) : checkCapability actor capability m ≠ some true := by
  simp only [loadPipeline, Option.bind_eq_bind, Option.bind_eq_some_iff] at h
  obtain ⟨bundle, -, teamOv, -, ⟨merged, chain⟩, hmerged, version, -, hvalid⟩ := h
  rw [checkCapability]
  split
  · simp
  · split
    · simp
    · intro hcheck
      simp only [Option.bind_eq_bind, Option.bind_eq_some_iff] at hcheck
      obtain ⟨qs, hq, hany⟩ := hcheck
      rw [capabilities_of_validated hvalid] at hq
      obtain ⟨ps, hps, hsub⟩ := respected_neverWidens.mergedPipeline hmerged capability qs hq
      rw [effectivePrincipals_default] at hps
      obtain rfl : [] = ps := Option.some.inj hps
      obtain rfl : qs = [] := List.sublist_nil.mp hsub
      cases hany

end

/-! ## What the layers say -/

/-- The texts of a list of principals. -/
def principalTexts : PyValue → List String
  | .list xs => xs.filterMap fun
    | .atom (.str p) => some p
    | _ => none
  | _ => []

/-- The `capabilities` section of an org bundle or an overlay. -/
def capabilitySection : PyValue → Dict
  | .dict layer =>
    match Dict.get layer (.str "capabilities") with
    | .dict capabilities => capabilities
    | _ => []
  | _ => []

/-- The principals of a capability, where the layer declares it. -/
def declaredPrincipals (layer : PyValue) (capability : String) : Option (List String) :=
  match Dict.get (capabilitySection layer) (.str "grants") with
  | .dict grants => (Dict.get? grants (.str capability)).map principalTexts
  | _ => none

def revokedPrincipals (layer : PyValue) : List String :=
  principalTexts (Dict.get (capabilitySection layer) (.str "revokes"))

/-- The actor is one of the principals. -/
def Listed (actor : String) (principals : List String) : Prop :=
  ∃ kind name, parseActor actor = some (kind, name) ∧
    ∃ p ∈ principals, principalMatches kind name p = true

/-- The org bundle grants the capability, no lower overlay takes it back, and no layer
revokes the principal. -/
structure Granted (bundle teamOv projectOverrides : PyValue) (actor capability : String) :
    Prop where
  org : ∃ ps, declaredPrincipals bundle capability = some ps ∧ Listed actor ps
  kept : ∀ layer ∈ [teamOv, projectOverrides], ∀ ps,
    declaredPrincipals layer capability = some ps → Listed actor ps
  not_revoked : ∀ layer ∈ [bundle, teamOv, projectOverrides],
    ¬ Listed actor (revokedPrincipals layer)

/-- The check agrees with the layers exactly where they do not grant. -/
theorem checkCapability_iff_granted_iff {reprOf : PyValue → String} {home : SpineHome}
    {projectId bundleId : String} {projectOverrides : PyValue} {m : PipelineManifest}
    (h : loadPipeline reprOf home projectId bundleId projectOverrides = some m) :
    ∃ bundle teamOv, activeBundle home bundleId = some bundle ∧
      teamOverrides home projectId = some teamOv ∧
      ∀ actor capability,
        (checkCapability actor capability m = some true ↔
          Granted bundle teamOv projectOverrides actor capability) ↔
          ¬ Granted bundle teamOv projectOverrides actor capability := by
  have hdenied := checkCapability_denied h
  simp only [loadPipeline, Option.bind_eq_bind, Option.bind_eq_some_iff] at h
  obtain ⟨bundle, hbundle, teamOv, hteam, -⟩ := h
  refine ⟨bundle, teamOv, hbundle, hteam, fun actor capability => ?_⟩
  constructor
  · intro hiff hgranted
    exact hdenied actor capability (hiff.mpr hgranted)
  · intro hnot
    exact ⟨fun hcheck => absurd hcheck (hdenied actor capability),
      fun hgranted => absurd hgranted hnot⟩

/-! ## A startup's bundle -/

/-- The `capabilities` section of `bundle-startup-saas.yaml`. -/
def startupBundle : PyValue := mapping [
  ("identity", mapping [("bundle_id", .text "startup-saas")]),
  ("capabilities", mapping [
    ("grants", mapping [
      ("can_modify_sdlc_pipeline", texts ["role:architect", "role:planner"]),
      ("can_modify_cost_policy", texts ["role:cto"]),
      ("can_grant_capabilities", texts ["role:cto"]),
      ("can_override_security", texts [])]),
    ("revokes", texts [])])]

def startupHome : SpineHome := fun path =>
  if path = ["active", "bundle.yaml"] then .yaml startupBundle else .absent

theorem loadPipeline_startup : ∃ m,
    loadPipeline (fun _ => "") startupHome "" "" .none = some m := by
  have hsome : (loadPipeline (fun _ => "") startupHome "" "" .none).isSome = true := by
    decide +kernel
  exact Option.isSome_iff_exists.mp hsome

theorem checkCapability_startup : ∃ m bundle teamOv,
    loadPipeline (fun _ => "") startupHome "" "" .none = some m ∧
    activeBundle startupHome "" = some bundle ∧ teamOverrides startupHome "" = some teamOv ∧
    ((checkCapability "role:cto" "can_modify_cost_policy" m = some true ↔
      Granted bundle teamOv .none "role:cto" "can_modify_cost_policy") ↔
      ¬ Granted bundle teamOv .none "role:cto" "can_modify_cost_policy") := by
  obtain ⟨m, h⟩ := loadPipeline_startup
  obtain ⟨bundle, teamOv, hbundle, hteam, hcheck⟩ := checkCapability_iff_granted_iff h
  exact ⟨m, bundle, teamOv, h, hbundle, hteam, hcheck "role:cto" "can_modify_cost_policy"⟩

/-- The CTO is granted the cost policy and is denied it. -/
theorem granted_cto_is_denied : ∃ m,
    loadPipeline (fun _ => "") startupHome "" "" .none = some m ∧
    Granted startupBundle (.dict []) .none "role:cto" "can_modify_cost_policy" ∧
    checkCapability "role:cto" "can_modify_cost_policy" m ≠ some true := by
  obtain ⟨m, h⟩ := loadPipeline_startup
  refine ⟨m, h, ⟨⟨["role:cto"], rfl, ?_⟩, ?_, ?_⟩, ?_⟩
  · exact ⟨"role".toList, "cto".toList, by decide, "role:cto", List.mem_singleton_self _,
      by decide⟩
  · intro layer hlayer ps hps
    rcases List.mem_cons.mp hlayer with rfl | hlayer
    · cases hps
    · obtain rfl := List.mem_singleton.mp hlayer
      cases hps
  · rintro layer hlayer ⟨kind, name, -, p, hp, -⟩
    have hnone : revokedPrincipals layer = [] := by
      simp only [List.mem_cons, List.not_mem_nil, or_false] at hlayer
      rcases hlayer with rfl | rfl | rfl <;> rfl
    rw [hnone] at hp
    cases hp
  · exact checkCapability_denied h "role:cto" "can_modify_cost_policy"

end SpineFormal.Plan
