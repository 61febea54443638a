import Mathlib.Data.List.Chain
import Mathlib.Data.List.Nodup
import Mathlib.Data.String.Basic

/-!
# Upgrading from one Spine version to another

`migration/spine_version.py` plans an upgrade as a chain of hops, each of them a step for every
subsystem of the registry, and runs the steps until one fails. Wherever it stops, the subsystems
are no further apart than a direct upgrade may reach.
-/

namespace SpineFormal.Migration.Upgrade

set_option autoImplicit false

/-! ## The plan -/

structure SubsystemVersion where
  subsystem : String
  schemaKind : String
  currentVersion : String
  minSupportedVersion : String
  ownerModule : String
  notes : String

/-- `version_registry.py`. -/
structure Registry where
  supported : List String
  /-- `N_MINUS_K_DIRECT_UPGRADE_DISTANCE`. -/
  distance : Nat
  subsystems : List SubsystemVersion
  supported_nodup : supported.Nodup
  distance_pos : 0 < distance
  subsystems_nodup : (subsystems.map SubsystemVersion.subsystem).Nodup

structure UpgradeStep where
  subsystem : String
  fromVersion : String
  toVersion : String
  schemaKind : String
  hopFrom : String
  hopTo : String
  rationale : String

def UpgradeStep.handlerId (step : UpgradeStep) : String :=
  step.schemaKind ++ "__" ++ step.subsystem ++ "__" ++ step.hopFrom ++ "__to__" ++ step.hopTo

structure UpgradePlan where
  fromSpineVersion : String
  toSpineVersion : String
  steps : List UpgradeStep
  intermediateStops : List String
  requiresAdminApproval : Bool

inductive UpgradeError where
  | unsupportedUpgradePath (version : String)
  | downgradeBlocked (fromVersion toVersion : String)
  | permissionError (fromVersion toVersion : String)

variable (r : Registry)

/-- `_version_index`. -/
def versionIndex (v : String) : Except UpgradeError Nat :=
  if v ∈ r.supported then .ok (r.supported.idxOf v) else .error (.unsupportedUpgradePath v)

def supportedPaths (fromVersion toVersion : String) : Except UpgradeError (List String) :=
  match versionIndex r fromVersion, versionIndex r toVersion with
  | .error e, _ => .error e
  | _, .error e => .error e
  | .ok i, .ok j =>
    if j < i then .error (.downgradeBlocked fromVersion toVersion)
    else if j = i then .ok [fromVersion]
    else if j - i ≤ r.distance then .ok [fromVersion, toVersion]
    else .ok ((r.supported.take (j + 1)).drop i)

/-- `_build_step`. -/
def buildStep (hopFrom hopTo : String) (s : SubsystemVersion) : UpgradeStep where
  subsystem := s.subsystem
  fromVersion := if r.supported.head? = some hopFrom then s.minSupportedVersion else s.currentVersion
  toVersion := s.currentVersion
  schemaKind := s.schemaKind
  hopFrom := hopFrom
  hopTo := hopTo
  rationale := s.subsystem ++ ": " ++ s.notes ++ " (spine " ++ hopFrom ++ " -> " ++ hopTo ++ ")"

def plan (fromVersion toVersion : String) : Except UpgradeError UpgradePlan :=
  match supportedPaths r fromVersion toVersion with
  | .error e => .error e
  | .ok hops =>
    if hops.length = 1 then .ok ⟨fromVersion, toVersion, [], [], false⟩
    else
      .ok ⟨fromVersion, toVersion,
        (hops.zip hops.tail).flatMap fun hop => r.subsystems.map (buildStep r hop.1 hop.2),
        hops.tail.dropLast, true⟩

/-! ## Running it -/

inductive Outcome where
  | skipped (message : String)
  | ok (message : String)
  | error (message : String)

structure UpgradeReport where
  plan : UpgradePlan
  stepOutcomes : List (UpgradeStep × Outcome)
  allOk : Bool

variable {σ : Type}

/-- The loop over the steps: the first failure ends it. -/
def runSteps (execute : σ → UpgradeStep → σ × Except String String) (dryRun : Bool) :
    List UpgradeStep → σ → σ × List (UpgradeStep × Outcome)
  | [], s => (s, [])
  | step :: steps, s =>
    if dryRun then
      let (s, outcomes) := runSteps execute dryRun steps s
      (s, (step, .skipped ("dry_run; would run " ++ step.handlerId)) :: outcomes)
    else
      match execute s step with
      | (s, .ok message) =>
        let (s, outcomes) := runSteps execute dryRun steps s
        (s, (step, .ok message) :: outcomes)
      | (s, .error message) => (s, [(step, .error message)])

def Outcome.isError : Outcome → Bool
  | error _ => true
  | _ => false

/-- `upgrade`; without a gate nothing is approved. -/
def upgrade (execute : σ → UpgradeStep → σ × Except String String)
    (approve : Option (UpgradePlan → Bool)) (dryRun : Bool) (fromVersion toVersion : String) (s : σ) :
    σ × Except UpgradeError UpgradeReport :=
  match plan r fromVersion toVersion with
  | .error e => (s, .error e)
  | .ok upgradePlan =>
    if upgradePlan.steps.isEmpty then (s, .ok ⟨upgradePlan, [], true⟩)
    else if !(approve.getD fun _ => false) upgradePlan then
      (s, .error (.permissionError fromVersion toVersion))
    else
      let (s, outcomes) := runSteps execute dryRun upgradePlan.steps s
      let ok := !outcomes.any fun o => o.2.isError
      (s, .ok ⟨upgradePlan, outcomes, ok && !dryRun || dryRun && ok⟩)

/-! ## Where the subsystems stand -/

/-- The steps that went well. -/
def UpgradeReport.done (report : UpgradeReport) : List UpgradeStep :=
  report.stepOutcomes.filterMap fun
    | (step, .ok _) => some step
    | _ => none

/-- The Spine version whose schema a subsystem has after these steps. -/
def standsAt (origin : String) (steps : List UpgradeStep) (subsystem : String) : String :=
  ((steps.filter fun step => step.subsystem = subsystem).getLast?.map UpgradeStep.hopTo).getD origin

/-- Each step begins where the one before it ended. -/
def Walk : String → List UpgradeStep → Prop
  | _, [] => True
  | origin, step :: steps => step.hopFrom = origin ∧ Walk step.hopTo steps

/-- A hop forward that a direct upgrade may take. -/
def Hop (a b : String) : Prop :=
  r.supported.idxOf a < r.supported.idxOf b ∧ r.supported.idxOf b ≤ r.supported.idxOf a + r.distance

/-- The steps along a chain of hops. -/
def stepsAlong : String → List String → List UpgradeStep
  | _, [] => []
  | a, b :: rest => r.subsystems.map (buildStep r a b) ++ stepsAlong b rest

variable {r}

theorem flatMap_hops (a : String) (rest : List String) :
    (((a :: rest).zip rest).flatMap fun hop => r.subsystems.map (buildStep r hop.1 hop.2)) =
      stepsAlong r a rest := by
  induction rest generalizing a with
  | nil => rfl
  | cons b rest ih =>
    rw [List.zip_cons_cons, List.flatMap_cons, ih, stepsAlong]

theorem versionIndex_ok {v : String} {i : Nat} (h : versionIndex r v = .ok i) :
    v ∈ r.supported ∧ i = r.supported.idxOf v := by
  unfold versionIndex at h
  split at h
  · rename_i hv
    exact ⟨hv, (Except.ok.inj h).symm⟩
  · cases h

theorem getElem?_idxOf {v : String} (hv : v ∈ r.supported) :
    r.supported[r.supported.idxOf v]? = some v := by
  rw [List.getElem?_eq_getElem (List.idxOf_lt_length_iff.mpr hv), List.getElem_idxOf]

theorem isChain_supported : r.supported.IsChain (Hop r) := by
  apply List.isChain_iff_getElem.mpr
  intro i hi
  have hpos := r.distance_pos
  rw [Hop, r.supported_nodup.idxOf_getElem, r.supported_nodup.idxOf_getElem]
  omega

/-- The hops lead from the one version to the other, each within reach of a direct upgrade. -/
theorem supportedPaths_spec {fromVersion toVersion : String} {hops : List String}
    (h : supportedPaths r fromVersion toVersion = .ok hops) :
    ∃ rest, hops = fromVersion :: rest ∧ hops.IsChain (Hop r) ∧ hops.getLast? = some toVersion := by
  unfold supportedPaths at h
  cases hi : versionIndex r fromVersion with
  | error e =>
    rw [hi] at h
    cases h
  | ok i =>
    cases hj : versionIndex r toVersion with
    | error e =>
      rw [hi, hj] at h
      cases h
    | ok j =>
      rw [hi, hj] at h
      obtain ⟨hfrom, rfl⟩ := versionIndex_ok hi
      obtain ⟨hto, rfl⟩ := versionIndex_ok hj
      dsimp only at h
      split at h
      · cases h
      · rename_i hup
        split at h
        · rename_i hsame
          obtain rfl := (List.idxOf_inj hto).mp hsame
          obtain rfl := Except.ok.inj h
          exact ⟨[], rfl, List.isChain_singleton _, rfl⟩
        · rename_i hne
          split at h
          · rename_i hgap
            obtain rfl := Except.ok.inj h
            refine ⟨[toVersion], rfl, ?_, rfl⟩
            rw [List.isChain_cons_cons, Hop]
            exact ⟨by omega, List.isChain_singleton _⟩
          · obtain rfl := Except.ok.inj h
            have hlt : r.supported.idxOf fromVersion < r.supported.idxOf toVersion + 1 := by omega
            have hlong : r.supported.idxOf toVersion < r.supported.length :=
              List.idxOf_lt_length_iff.mpr hto
            have hhead : ((r.supported.take (r.supported.idxOf toVersion + 1)).drop
                (r.supported.idxOf fromVersion)).head? = some fromVersion := by
              rw [List.head?_drop, List.getElem?_take_of_lt hlt, getElem?_idxOf hfrom]
            obtain ⟨rest, hrest⟩ := List.head?_eq_some_iff.mp hhead
            refine ⟨rest, hrest, (isChain_supported.take _).drop _, ?_⟩
            rw [List.getLast?_drop, if_neg, List.getLast?_take, if_neg (Nat.succ_ne_zero _),
              Nat.add_sub_cancel, getElem?_idxOf hto]
            · rfl
            · rw [List.length_take]
              omega

theorem idxOf_le_of_isChain {a b : String} {hops : List String} (h : (a :: hops).IsChain (Hop r))
    (hb : (a :: hops).getLast? = some b) : r.supported.idxOf a ≤ r.supported.idxOf b := by
  induction hops generalizing a with
  | nil =>
    obtain rfl := Option.some.inj hb
    exact Nat.le_refl _
  | cons c hops ih =>
    obtain ⟨hop, hchain⟩ := List.isChain_cons_cons.mp h
    rw [List.getLast?_cons_cons] at hb
    have hle := ih hchain hb
    have hlt := hop.1
    omega

/-! ## One hop of all subsystems -/

theorem filter_map_buildStep {a b : String} {ss : List SubsystemVersion}
    (hnodup : (ss.map SubsystemVersion.subsystem).Nodup) (name : String) :
    (ss.map (buildStep r a b)).filter (fun step => step.subsystem = name) =
      ((ss.find? fun s => s.subsystem = name).map (buildStep r a b)).toList := by
  induction ss with
  | nil => rfl
  | cons s ss ih =>
    obtain ⟨hs, hss⟩ := List.nodup_cons.mp hnodup
    rw [List.map_cons, List.filter_cons, List.find?_cons, ih hss]
    by_cases hname : s.subsystem = name
    · have hnone : ss.find? (fun s => s.subsystem = name) = none := by
        apply List.find?_eq_none.mpr
        intro t ht hno
        apply hs
        rw [hname, ← of_decide_eq_true hno]
        exact List.mem_map_of_mem ht
      have hbuilt : (buildStep r a b s).subsystem = name := hname
      rw [if_pos (decide_eq_true hbuilt), hnone]
      simp [hname]
    · have hbuilt : ¬ (buildStep r a b s).subsystem = name := hname
      rw [if_neg (by simpa using hbuilt)]
      simp [hname]

theorem standsAt_append (origin : String) (first second : List UpgradeStep) (name : String) :
    standsAt origin (first ++ second) name = standsAt (standsAt origin first name) second name := by
  unfold standsAt
  rw [List.filter_append, List.getLast?_append]
  cases (second.filter fun step => step.subsystem = name).getLast? <;> rfl

theorem standsAt_hop {a b : String} {ss : List SubsystemVersion}
    (hnodup : (ss.map SubsystemVersion.subsystem).Nodup) (name : String) :
    standsAt a (ss.map (buildStep r a b)) name =
      if name ∈ ss.map SubsystemVersion.subsystem then b else a := by
  rw [standsAt, filter_map_buildStep hnodup]
  cases hfind : ss.find? fun s => s.subsystem = name with
  | none =>
    rw [if_neg]
    · rfl
    · intro hmem
      obtain ⟨s, hs, hname⟩ := List.mem_map.mp hmem
      exact List.find?_eq_none.mp hfind s hs (decide_eq_true hname)
  | some s =>
    rw [if_pos]
    · rfl
    · have hname : s.subsystem = name := by simpa using List.find?_some hfind
      exact List.mem_map.mpr ⟨s, List.mem_of_find?_eq_some hfind, hname⟩

theorem walk_append {origin : String} {first second : List UpgradeStep} (hfirst : Walk origin first)
    (hsecond : Walk ((first.getLast?.map UpgradeStep.hopTo).getD origin) second) :
    Walk origin (first ++ second) := by
  induction first generalizing origin with
  | nil => exact hsecond
  | cons step first ih =>
    refine ⟨hfirst.1, ih hfirst.2 ?_⟩
    cases first with
    | nil => exact hsecond
    | cons step' first => exact hsecond

theorem walk_hop {a b : String} {ss : List SubsystemVersion}
    (hnodup : (ss.map SubsystemVersion.subsystem).Nodup) (name : String) :
    Walk a ((ss.map (buildStep r a b)).filter fun step => step.subsystem = name) := by
  rw [filter_map_buildStep hnodup]
  cases ss.find? fun s => s.subsystem = name with
  | none => exact trivial
  | some s => exact ⟨rfl, trivial⟩

/-- After a number of steps of a plan: each subsystem went from hop to hop, all of them stand at
the two ends of one hop, and they stand at the goal when no step is left. -/
structure Lockstep (r : Registry) (origin goal : String) (complete : Prop) (done : List UpgradeStep) :
    Prop where
  walk : ∀ s ∈ r.subsystems, Walk origin (done.filter fun step => step.subsystem = s.subsystem)
  hop : ∀ step ∈ done, Hop r step.hopFrom step.hopTo
  together : ∃ lo hi, (lo = hi ∨ Hop r lo hi) ∧
    ∀ s ∈ r.subsystems, standsAt origin done s.subsystem = lo ∨ standsAt origin done s.subsystem = hi
  goal : complete ↔ ∀ s ∈ r.subsystems, standsAt origin done s.subsystem = goal

/-- A hop that is not finished. -/
theorem lockstep_partial {a c goal : String} (hop : Hop r a c)
    (hle : r.supported.idxOf c ≤ r.supported.idxOf goal) {n : Nat} (hn : n < r.subsystems.length) :
    Lockstep r a goal False ((r.subsystems.take n).map (buildStep r a c)) := by
  have hsub : (r.subsystems.take n).Sublist r.subsystems := List.take_sublist _ _
  have hnodup : ((r.subsystems.take n).map SubsystemVersion.subsystem).Nodup :=
    r.subsystems_nodup.sublist (hsub.map _)
  refine ⟨fun s _ => walk_hop hnodup s.subsystem, ?_, ⟨a, c, .inr hop, fun s _ => ?_⟩, ?_⟩
  · intro step hstep
    obtain ⟨s, -, rfl⟩ := List.mem_map.mp hstep
    exact hop
  · rw [standsAt_hop hnodup]
    split
    · exact .inr rfl
    · exact .inl rfl
  · refine iff_of_false id fun hall => ?_
    have hmem : r.subsystems[n] ∈ r.subsystems := List.getElem_mem hn
    have hbehind : r.subsystems[n].subsystem ∉
        (r.subsystems.take n).map SubsystemVersion.subsystem := by
      have hsplit : r.subsystems.take n ++ r.subsystems[n] :: r.subsystems.drop (n + 1) =
          r.subsystems := by rw [List.getElem_cons_drop, List.take_append_drop]
      have hall := r.subsystems_nodup
      rw [← hsplit, List.map_append, List.map_cons] at hall
      intro hno
      exact List.disjoint_of_nodup_append hall hno List.mem_cons_self
    have hstands := hall _ hmem
    rw [standsAt_hop hnodup, if_neg hbehind] at hstands
    have hlt := hop.1
    rw [hstands] at hlt
    omega

theorem lockstep_take {a goal : String} {rest : List String} (hchain : (a :: rest).IsChain (Hop r))
    (hgoal : (a :: rest).getLast? = some goal) (n : Nat) :
    Lockstep r a goal ((stepsAlong r a rest).length ≤ n) ((stepsAlong r a rest).take n) := by
  induction rest generalizing a n with
  | nil =>
    obtain rfl := Option.some.inj hgoal
    refine ⟨fun _ _ => ?_, ?_, ⟨a, a, .inl rfl, fun _ _ => .inl ?_⟩, iff_of_true (Nat.zero_le n) ?_⟩
    · rw [stepsAlong, List.take_nil, List.filter_nil]
      exact trivial
    · rw [stepsAlong, List.take_nil]
      exact fun _ hno => absurd hno List.not_mem_nil
    · rw [stepsAlong, List.take_nil]
      rfl
    · intro s _
      rw [stepsAlong, List.take_nil]
      rfl
  | cons c rest ih =>
    obtain ⟨hop, hchain⟩ := List.isChain_cons_cons.mp hchain
    rw [List.getLast?_cons_cons] at hgoal
    have hle := idxOf_le_of_isChain hchain hgoal
    rw [stepsAlong, List.take_append, List.length_append, List.length_map, ← List.map_take]
    rcases Nat.lt_or_ge n r.subsystems.length with hn | hn
    · have hrun := lockstep_partial hop hle hn
      have hrest : (stepsAlong r c rest).take (n - r.subsystems.length) = [] := by
        rw [Nat.sub_eq_zero_of_le hn.le, List.take_zero]
      rw [hrest, List.append_nil]
      refine ⟨hrun.walk, hrun.hop, hrun.together, ?_⟩
      rw [← hrun.goal]
      exact iff_of_false (by omega) id
    · obtain ⟨hwalk, hhop, ⟨lo, hi, hnear, htogether⟩, hdone⟩ :=
        ih hchain hgoal (n - r.subsystems.length)
      rw [List.take_of_length_le hn]
      generalize (stepsAlong r c rest).take (n - r.subsystems.length) = later at *
      have hstands (s : SubsystemVersion) (hs : s ∈ r.subsystems) :
          standsAt a (r.subsystems.map (buildStep r a c) ++ later) s.subsystem =
            standsAt c later s.subsystem := by
        rw [standsAt_append, standsAt_hop r.subsystems_nodup, if_pos (List.mem_map_of_mem hs)]
      have hfirst (name : String) :
          ((((r.subsystems.map (buildStep r a c)).filter fun step =>
            step.subsystem = name).getLast?.map UpgradeStep.hopTo).getD a) =
            if name ∈ r.subsystems.map SubsystemVersion.subsystem then c else a :=
        standsAt_hop r.subsystems_nodup name
      refine ⟨fun s hs => ?_, ?_, ⟨lo, hi, hnear, fun s hs => ?_⟩, ?_⟩
      · rw [List.filter_append]
        apply walk_append (walk_hop r.subsystems_nodup s.subsystem)
        rw [hfirst, if_pos (List.mem_map_of_mem hs)]
        exact hwalk s hs
      · intro step hstep
        rcases List.mem_append.mp hstep with hstep | hstep
        · obtain ⟨s, -, rfl⟩ := List.mem_map.mp hstep
          exact hop
        · exact hhop step hstep
      · rw [hstands s hs]
        exact htogether s hs
      · have hcount : r.subsystems.length + (stepsAlong r c rest).length ≤ n ↔
            (stepsAlong r c rest).length ≤ n - r.subsystems.length := by omega
        rw [hcount, hdone]
        exact forall₂_congr fun s hs => by rw [hstands s hs]

/-! ## Any upgrade -/

/-- A run of the steps carries out the first ones, and all of them unless it meets an error. -/
theorem runSteps_spec (execute : σ → UpgradeStep → σ × Except String String)
    (steps : List UpgradeStep) (s : σ) :
    ∃ n, ((runSteps execute false steps s).2.filterMap fun
        | (step, .ok _) => some step
        | _ => none) = steps.take n ∧
      (((runSteps execute false steps s).2.any fun o => o.2.isError) = false ↔ steps.length ≤ n) := by
  induction steps generalizing s with
  | nil => exact ⟨0, rfl, iff_of_true rfl (Nat.le_refl 0)⟩
  | cons step steps ih =>
    rw [runSteps, if_neg Bool.false_ne_true]
    obtain ⟨s', result⟩ := execute s step
    cases result with
    | ok message =>
      obtain ⟨n, hdone, herror⟩ := ih s'
      refine ⟨n + 1, ?_, ?_⟩
      · dsimp only
        rw [List.filterMap_cons, List.take_succ_cons, ← hdone]
      · dsimp only
        rw [List.any_cons, List.length_cons, Nat.add_le_add_iff_right, ← herror]
        rfl
    | error message =>
      refine ⟨0, rfl, iff_of_false (fun hno => nomatch hno) ?_⟩
      rw [List.length_cons]
      omega

/-- Wherever an upgrade stops, every handler ran on the version that the one before it for the
subsystem had left, no hop was longer than the direct distance, and no two subsystems are more
than one hop apart. The report says that all is well just when every subsystem stands at the new
version. -/
theorem upgrade_lockstep (r : Registry) (execute : σ → UpgradeStep → σ × Except String String)
    (approve : Option (UpgradePlan → Bool)) {fromVersion toVersion : String} {s s' : σ}
    {report : UpgradeReport}
    (h : upgrade r execute approve false fromVersion toVersion s = (s', .ok report)) :
    Lockstep r fromVersion toVersion (report.allOk = true) report.done := by
  unfold upgrade plan at h
  cases hpaths : supportedPaths r fromVersion toVersion with
  | error e =>
    rw [hpaths] at h
    cases (Prod.mk.inj h).2
  | ok hops =>
    obtain ⟨rest, rfl, hchain, hlast⟩ := supportedPaths_spec hpaths
    have hlock := lockstep_take hchain hlast
    rw [hpaths] at h
    dsimp only at h
    split at h
    · cases (Prod.mk.inj h).2
    · rename_i upgradePlan hplan
      have hsteps : upgradePlan.steps = stepsAlong r fromVersion rest := by
        split at hplan
        · rename_i hone
          obtain rfl := Except.ok.inj hplan
          obtain rfl : rest = [] := List.length_eq_zero_iff.mp (by simpa using hone)
          rfl
        · obtain rfl := Except.ok.inj hplan
          exact flatMap_hops fromVersion rest
      split at h
      · rename_i hempty
        obtain rfl := Except.ok.inj (Prod.mk.inj h).2
        have hnil : stepsAlong r fromVersion rest = [] := by
          rw [← hsteps]
          exact List.isEmpty_iff.mp hempty
        have hzero := hlock 0
        rw [hnil] at hzero
        have hgoal := hzero.goal
        exact ⟨hzero.walk, hzero.hop, hzero.together,
          (iff_of_true rfl (Nat.zero_le 0)).trans hgoal⟩
      · split at h
        · cases (Prod.mk.inj h).2
        · obtain ⟨n, hdone, herror⟩ := runSteps_spec execute upgradePlan.steps s
          rw [hsteps] at h hdone herror
          generalize runSteps execute false (stepsAlong r fromVersion rest) s = ran at h hdone herror
          obtain rfl := Except.ok.inj (Prod.mk.inj h).2
          have hn := hlock n
          rw [← hdone, ← herror] at hn
          refine ⟨hn.walk, hn.hop, hn.together, Iff.trans ?_ hn.goal⟩
          dsimp only
          rw [Bool.not_false, Bool.and_true, Bool.false_and, Bool.or_false, Bool.not_eq_true']

theorem supported_nodup_spine : ["1.0", "1.1", "1.2", "1.3"].Nodup := by decide

theorem subsystems_nodup_spine :
    ["db", "bundle", "license_bundle", "role_charters", "vault_namespace", "spine_kg"].Nodup := by
  decide

/-- The registry of this release. -/
def spineRegistry : Registry where
  supported := ["1.0", "1.1", "1.2", "1.3"]
  distance := 2
  subsystems := [
    ⟨"db", "db", "V35", "V32", "db.flyway.sql", "Flyway-managed PostgreSQL schemas " ++
      "(spine_lifecycle, spine_audit, spine_kg, spine_memory, spine_license, spine_federation, " ++
      "spine_evidence, spine_learning, spine_devops, spine_workitem, spine_hub, spine_identity)."⟩,
    ⟨"bundle", "bundle", "1", "1", "shared.standards.bundle_schema", "Org-policy bundle YAML " ++
      "(federation pipeline, feature flags, comm prefs, learning scope, devops planes)."⟩,
    ⟨"license_bundle", "bundle", "1", "1", "shared.schemas.license.bundle_v1",
      "Signed Ed25519 license bundle (feature flags + quotas + tier)."⟩,
    ⟨"role_charters", "charter", "v3", "v2", "shared.charters",
      "Industry-anchored role charters (PMBOK/ITIL/NIST/SRE)."⟩,
    ⟨"vault_namespace", "vault_namespace", "v3", "v3", "shared.secrets",
      "Reserved vault path prefixes (license/, federation/, hub/, keycloak/, " ++
      "integration/<name>/, project/<id>/)."⟩,
    ⟨"spine_kg", "kg_schema", "V2", "V2", "build.kg",
      "Knowledge graph node/edge schema + extractor contracts."⟩]
  supported_nodup := supported_nodup_spine
  distance_pos := Nat.two_pos
  subsystems_nodup := subsystems_nodup_spine

/-- The handlers of the first hop work, the one for the charters of the second fails. -/
def failingCharters (s : Unit) (step : UpgradeStep) : Unit × Except String String :=
  if step.schemaKind = "charter" ∧ step.hopTo = "1.2" then (s, .error "charter") else (s, .ok "")

theorem upgrade_lockstep_failingCharters :
    ∃ report, (upgrade spineRegistry failingCharters (some fun _ => true) false "1.0" "1.3" ()).2 =
        .ok report ∧
      Lockstep spineRegistry "1.0" "1.3" (report.allOk = true) report.done := by
  have hok : ((upgrade spineRegistry failingCharters (some fun _ => true) false "1.0" "1.3"
      ()).2.toOption).isSome = true := by decide +kernel
  obtain ⟨report, hreport⟩ := Option.isSome_iff_exists.mp hok
  generalize hrun : upgrade spineRegistry failingCharters (some fun _ => true) false "1.0" "1.3" () =
    ran at hreport
  obtain ⟨s', result⟩ := ran
  cases result with
  | error e => cases hreport
  | ok report' => exact ⟨report', rfl, upgrade_lockstep _ _ _ hrun⟩

end SpineFormal.Migration.Upgrade
