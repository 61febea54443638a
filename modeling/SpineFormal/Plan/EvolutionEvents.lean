import Mathlib.Data.List.Perm.Basic
import SpineFormal.Json.Loads
import SpineFormal.Plan.PhaseEvolution

/-!
# Every phase that changes is in one event

`_detect_renames` pairs the phases that came with the phases that went, the first with its
signature first: a phase that is taken is out of the list, so that the pairs are a partial
bijection and what is left is reported as it is. A phase of both manifests is in no such event,
and a change of its gate or of its rollback target is one of its own that a person must look at.
-/

namespace SpineFormal.Plan

open Py
set_option autoImplicit false

abbrev phaseId (p : Dict) : PyValue := Dict.get p (.str "id")

/-- No id comes twice. -/
structure UniqueIds (m : PipelineManifest) : Prop where
  apart : (phaseOrder m).Pairwise fun v w => v.eq w = false
  /-- A `NaN` is no id: it is not even equal to itself. -/
  comparable : ∀ v ∈ phaseOrder m, v.eq v = true

/-- The event is about a phase whose id is `v`. -/
def PhaseEvolutionEvent.names (t : EvolutionType) (v : PyValue) (e : PhaseEvolutionEvent) : Bool :=
  e.eventType = t && (PyValue.text e.phaseId).eq v

/-- `v` is on one side of a rename. -/
def PhaseEvolutionEvent.renames (side : String) (v : PyValue) (e : PhaseEvolutionEvent) : Bool :=
  e.eventType = .phaseRenamed && (Dict.get e.detail (.str side)).eq v

/-- The phase goes, or has another id from now on. -/
def PhaseEvolutionEvent.leaves (v : PyValue) (e : PhaseEvolutionEvent) : Bool :=
  e.names .phaseRemoved v || e.renames "from" v

def PhaseEvolutionEvent.enters (v : PyValue) (e : PhaseEvolutionEvent) : Bool :=
  e.names .phaseAdded v || e.renames "to" v

def Missing (v : PyValue) (m : PipelineManifest) : Prop := ∀ w ∈ phaseOrder m, w.eq v = false

/-- The phase is there with the same gate and the same place to roll back to. -/
def PhaseKept (p : Dict) (m : PipelineManifest) : Prop :=
  ∃ q ∈ m.phases, (phaseId q).eq (phaseId p) = true ∧
    (Dict.get p (.str "gate")).eq (Dict.get q (.str "gate")) = true ∧
    (Dict.get p (.str "rollback_to")).eq (Dict.get q (.str "rollback_to")) = true

structure Accounted (old new : PipelineManifest) (events : List PhaseEvolutionEvent) : Prop where
  gone : ∀ v ∈ phaseOrder old, Missing v new → events.countP (·.leaves v) = 1
  came : ∀ v ∈ phaseOrder new, Missing v old → events.countP (·.enters v) = 1
  paired : ∀ v, events.countP (·.renames "from" v) + events.countP (·.renames "to" v) ≤ 1
  kept : (∀ e ∈ events, e.autoMigratable = true) →
    ∀ p ∈ old.phases, (phaseId p).truthy = true → PhaseKept p new

/-! ## Equal values -/

theorem countP_same {ks : List Atom} (h : ks.Pairwise fun k l => k.same l = false) (a : Atom) :
    ks.countP (·.same a) = if ks.any (·.same a) then 1 else 0 := by
  induction ks with
  | nil => rfl
  | cons k ks ih =>
    obtain ⟨hk, hks⟩ := List.pairwise_cons.mp h
    rw [List.countP_cons, List.any_cons]
    by_cases ha : k.same a = true
    · have hrest : ks.countP (·.same a) = 0 := by
        refine List.countP_eq_zero.mpr fun l hl hla => ?_
        have hkl := hk l hl
        rw [same_congr ha, same_comm, hla] at hkl
        cases hkl
      rw [hrest, ha]
      rfl
    · rw [Bool.not_eq_true] at ha
      rw [ha, ih hks]
      rfl

theorem get?_congr {k l : Atom} (h : k.same l = true) (d : Dict) :
    Dict.get? d k = Dict.get? d l := by
  induction d with
  | nil => rfl
  | cons m d ih => rw [Dict.get?, Dict.get?, same_comm m.1 k, same_congr h, same_comm l, ih]

/-- Equal dictionaries have equal values under each key. -/
theorem eqItems_get? {ms ns : Dict} (h : eqItems ms ns = true) {k : Atom} {v : PyValue}
    (hv : Dict.get? ms k = some v) : ∃ w, Dict.get? ns k = some w ∧ v.eq w = true := by
  induction ms with
  | nil => cases hv
  | cons m ms ih =>
    obtain ⟨l, w⟩ := m
    rw [eqItems, Bool.and_eq_true] at h
    rw [Dict.get?] at hv
    by_cases hl : l.same k = true
    · rw [if_pos hl] at hv
      obtain rfl := Option.some.inj hv
      have hhead := h.1
      rw [get?_congr hl] at hhead
      cases hn : Dict.get? ns k with
      | none =>
        rw [hn] at hhead
        cases hhead
      | some w' =>
        rw [hn] at hhead
        exact ⟨w', rfl, hhead⟩
    · rw [if_neg hl] at hv
      exact ih h.2 hv

theorem eq_dict_get {p q : Dict} (h : PyValue.eq (.dict p) (.dict q) = true) {k : Atom}
    {v : PyValue} (hv : Dict.get? p k = some v) :
    (Dict.get p k).eq (Dict.get q k) = true := by
  rw [PyValue.eq, Bool.and_eq_true] at h
  obtain ⟨w, hw, hvw⟩ := eqItems_get? h.2 hv
  rw [Dict.get, Dict.get, hv, hw]
  exact hvw

/-! ## The phases under their ids -/

theorem get?_isSome (d : Dict) (a : Atom) :
    (Dict.get? d a).isSome = (d.map Prod.fst).any (·.same a) := by
  induction d with
  | nil => rfl
  | cons m d ih =>
    rw [Dict.get?, List.map_cons, List.any_cons, ← ih]
    cases m.1.same a <;> rfl

theorem mem_of_get? {d : Dict} {a : Atom} {v : PyValue} (h : Dict.get? d a = some v) :
    ∃ k, (k, v) ∈ d ∧ k.same a = true := by
  induction d with
  | nil => cases h
  | cons m d ih =>
    rw [Dict.get?] at h
    by_cases hm : m.1.same a = true
    · rw [if_pos hm] at h
      obtain rfl := Option.some.inj h
      exact ⟨m.1, List.mem_cons_self, hm⟩
    · rw [if_neg hm] at h
      obtain ⟨k, hk, hka⟩ := ih h
      exact ⟨k, List.mem_cons_of_mem m hk, hka⟩

theorem get?_of_mem {d : Dict} (hd : (d.map Prod.fst).Pairwise fun k l => k.same l = false)
    {k a : Atom} {v : PyValue} (h : (k, v) ∈ d) (hka : k.same a = true) :
    Dict.get? d a = some v := by
  induction d with
  | nil => cases h
  | cons m d ih =>
    obtain ⟨hm, hd⟩ := List.pairwise_cons.mp hd
    rw [Dict.get?]
    rcases List.mem_cons.mp h with rfl | h
    · exact if_pos hka
    · have hmk := hm k (List.mem_map_of_mem h)
      rw [if_neg, ih hd h]
      intro hma
      rw [same_congr hma, same_comm, hka] at hmk
      cases hmk

theorem set_of_fresh {d : Dict} {k : Atom} (h : ∀ m ∈ d, m.1.same k = false) (v : PyValue) :
    Dict.set d k v = d ++ [(k, v)] := by
  induction d with
  | nil => rfl
  | cons m d ih =>
    obtain ⟨hm, hd⟩ := List.forall_mem_cons.mp h
    rw [Dict.set, hm, ih hd]
    rfl

/-- A dictionary of the phases of a manifest. -/
structure PhaseTable (m : PipelineManifest) (d : Dict) : Prop where
  order : phaseOrder m = d.map fun e => .atom e.1
  phase : ∀ e ∈ d, ∃ p ∈ m.phases, e.2 = .dict p ∧ phaseId p = .atom e.1 ∧
    (phaseId p).truthy = true
  entry : ∀ p ∈ m.phases, (phaseId p).truthy = true → ∃ a, phaseId p = .atom a ∧ (a, .dict p) ∈ d
  apart : (d.map Prod.fst).Pairwise fun k l => k.same l = false

def phaseEntry (p : Dict) : Option (Atom × PyValue) :=
  if (phaseId p).truthy then (phaseId p).asKey.map fun a => (a, .dict p) else none

/-- One phase of `_phase_map`. -/
def registerPhase (out p : Dict) : Option Dict :=
  if (phaseId p).truthy then do
    return Dict.set out (← (phaseId p).asKey) (.dict p)
  else return out

theorem asKey_some {v : PyValue} {a : Atom} (h : v.asKey = some a) : v = .atom a := by
  cases v with
  | atom b => exact congrArg PyValue.atom (Option.some.inj h)
  | set | list | dict => cases h

/-- Phases with ids of their own are all added at the end. -/
theorem foldlM_registerPhase (ps : List Dict) {out d : Dict}
    (h : ps.foldlM registerPhase out = some d)
    (hapart : (out.map (fun e => PyValue.atom e.1) ++
      (ps.map phaseId).filter PyValue.truthy).Pairwise fun v w => v.eq w = false) :
    d = out ++ ps.filterMap phaseEntry ∧
      (ps.map phaseId).filter PyValue.truthy =
        (ps.filterMap phaseEntry).map (fun e => PyValue.atom e.1) ∧
      ∀ p ∈ ps, (phaseId p).truthy = true → ∃ a, phaseId p = .atom a := by
  induction ps generalizing out with
  | nil =>
    obtain rfl := Option.some.inj h
    exact ⟨(List.append_nil _).symm, rfl, fun p hp => by cases hp⟩
  | cons p ps ih =>
    rw [List.foldlM_cons] at h
    obtain ⟨out', hout', h⟩ := Option.bind_eq_some_iff.mp h
    rw [registerPhase] at hout'
    rw [List.map_cons, List.filterMap_cons, phaseEntry]
    rw [List.map_cons] at hapart
    by_cases hid : (phaseId p).truthy = true
    · rw [if_pos hid] at hout'
      obtain ⟨a, ha, hout'⟩ := Option.bind_eq_some_iff.mp hout'
      have hatom := asKey_some ha
      rw [List.filter_cons_of_pos hid] at hapart ⊢
      have hfresh : ∀ e ∈ out, e.1.same a = false := by
        intro e he
        have hdistinct := (List.pairwise_append.mp hapart).2.2 (.atom e.1)
          (List.mem_map_of_mem he) (phaseId p) List.mem_cons_self
        rw [hatom, PyValue.eq] at hdistinct
        exact hdistinct
      obtain rfl := Option.some.inj hout'
      rw [set_of_fresh hfresh] at h
      have hrest := ih h (by
        rw [List.map_append, List.append_assoc, List.map_singleton, List.singleton_append,
          ← hatom]
        exact hapart)
      obtain ⟨hd, horder, hatoms⟩ := hrest
      refine ⟨?_, ?_, ?_⟩
      · rw [hd, if_pos hid, ha, Option.map_some, List.append_assoc, List.singleton_append]
      · rw [horder, if_pos hid, ha, Option.map_some, hatom, List.map_cons]
      · intro q hq hqid
        rcases List.mem_cons.mp hq with rfl | hq
        · exact ⟨a, hatom⟩
        · exact hatoms q hq hqid
    · rw [if_neg hid] at hout'
      obtain rfl := Option.some.inj hout'
      rw [List.filter_cons_of_neg hid] at hapart ⊢
      obtain ⟨hd, horder, hatoms⟩ := ih h hapart
      rw [if_neg hid]
      refine ⟨hd, horder, ?_⟩
      intro q hq hqid
      rcases List.mem_cons.mp hq with rfl | hq
      · exact absurd hqid hid
      · exact hatoms q hq hqid

theorem phaseEntry_some {p : Dict} {e : Atom × PyValue} (h : phaseEntry p = some e) :
    e.2 = .dict p ∧ phaseId p = .atom e.1 ∧ (phaseId p).truthy = true := by
  rw [phaseEntry] at h
  split at h
  · rename_i hid
    obtain ⟨a, ha, rfl⟩ := Option.map_eq_some_iff.mp h
    exact ⟨rfl, asKey_some ha, hid⟩
  · cases h

theorem phaseMap_table {m : PipelineManifest} (hunique : UniqueIds m) {d : Dict}
    (h : phaseMap m = some d) : PhaseTable m d := by
  obtain ⟨hd, horder, hatoms⟩ := foldlM_registerPhase m.phases h hunique.apart
  rw [List.nil_append] at hd
  have hkeys : phaseOrder m = d.map fun e => .atom e.1 := hd ▸ horder
  constructor
  · exact hkeys
  · intro e he
    rw [hd] at he
    obtain ⟨p, hp, hentry⟩ := List.mem_filterMap.mp he
    exact ⟨p, hp, phaseEntry_some hentry⟩
  · intro p hp hid
    obtain ⟨a, ha⟩ := hatoms p hp hid
    refine ⟨a, ha, hd ▸ List.mem_filterMap.mpr ⟨p, hp, ?_⟩⟩
    rw [phaseEntry, if_pos hid, ha]
    rfl
  · have hapart := hunique.apart
    rw [hkeys] at hapart
    refine List.pairwise_map.mpr ((List.pairwise_map.mp hapart).imp ?_)
    intro e f hef
    rw [PyValue.eq] at hef
    exact hef

/-- How often an id is among the phases of one map that the other does not have. -/
theorem countP_phasesOutside {m : PipelineManifest} {d : Dict} (hd : PhaseTable m d) (other : Dict)
    (a : Atom) :
    (phasesOutside d other).countP (fun p => (phaseId p).eq (.atom a)) =
      if (Dict.get? d a).isSome && (Dict.get? other a).isNone then 1 else 0 := by
  have hrow : ∀ e ∈ d,
      (((e.2.asDict.map fun p => (phaseId p).eq (.atom a)).getD false &&
        !(Dict.get? other e.1).isSome) = true ↔
        (e.1.same a && (Dict.get? other a).isNone) = true) := by
    intro e he
    obtain ⟨p, -, hvalue, hid, -⟩ := hd.phase e he
    rw [hvalue, PyValue.asDict, Option.map_some, Option.getD_some, hid, PyValue.eq]
    by_cases hsame : e.1.same a = true
    · rw [hsame, get?_congr hsame, Option.not_isSome]
    · rw [Bool.not_eq_true] at hsame
      rw [hsame]
      rfl
  have hkeys : d.countP (fun e => e.1.same a) = if (Dict.get? d a).isSome then 1 else 0 := by
    rw [get?_isSome, ← countP_same hd.apart, List.countP_map]
    rfl
  rw [phasesOutside, List.countP_filterMap, List.countP_filter, List.countP_congr hrow]
  cases (Dict.get? other a).isNone with
  | true =>
    simp only [Bool.and_true]
    exact hkeys
  | false => simp

theorem mem_phasesOutside {m : PipelineManifest} {d other : Dict} (hd : PhaseTable m d)
    {p : Dict} :
    p ∈ phasesOutside d other ↔
      ∃ a, phaseId p = .atom a ∧ (a, .dict p) ∈ d ∧ Dict.get? other a = none := by
  rw [phasesOutside, List.mem_filterMap]
  constructor
  · rintro ⟨e, he, hvalue⟩
    obtain ⟨he, houtside⟩ := List.mem_filter.mp he
    obtain ⟨q, -, hq, hid, -⟩ := hd.phase e he
    rw [hq] at hvalue
    obtain rfl := Option.some.inj hvalue
    refine ⟨e.1, hid, hq ▸ he, ?_⟩
    simpa using houtside
  · rintro ⟨a, -, he, hnone⟩
    refine ⟨(a, .dict p), List.mem_filter.mpr ⟨he, ?_⟩, rfl⟩
    rw [hnone]
    rfl

/-- Two phases of one map are never equal. -/
theorem phasesOutside_apart {m : PipelineManifest} {d : Dict} (hd : PhaseTable m d)
    (other : Dict) :
    (phasesOutside d other).Pairwise fun p q => PyValue.eq (.dict p) (.dict q) = false := by
  rw [phasesOutside, List.pairwise_filterMap]
  have hkeys := (List.pairwise_map.mp hd.apart).sublist
    (List.filter_sublist (p := fun e => !(Dict.get? other e.1).isSome))
  refine hkeys.imp_of_mem ?_
  intro e f he hf hef p hp q hq
  obtain ⟨p', -, hep, hpid, hptruthy⟩ := hd.phase e (List.mem_filter.mp he).1
  obtain ⟨q', -, hfq, hqid, -⟩ := hd.phase f (List.mem_filter.mp hf).1
  rw [hep] at hp
  rw [hfq] at hq
  obtain rfl := Option.some.inj hp
  obtain rfl := Option.some.inj hq
  by_contra heq
  rw [Bool.not_eq_false] at heq
  have hsome : ∃ v, Dict.get? p' (.str "id") = some v := by
    cases hget : Dict.get? p' (.str "id") with
    | some v => exact ⟨v, rfl⟩
    | none =>
      rw [phaseId, Dict.get, hget] at hptruthy
      cases hptruthy
  obtain ⟨v, hv⟩ := hsome
  have hids : (phaseId p').eq (phaseId q') = true := eq_dict_get heq hv
  rw [hpid, hqid, PyValue.eq, hef] at hids
  cases hids

/-! ## The pairs -/

section
variable (reprOf : PyValue → String) (copySet : List Atom → List Atom)

theorem removePhase_perm {found : Dict → Bool} {r : Dict} {rems : List Dict}
    (hfound : rems.find? found = some r)
    (hapart : rems.Pairwise fun p q => PyValue.eq (.dict p) (.dict q) = false) :
    rems.Perm (r :: removePhase found r rems) := by
  obtain ⟨hr, before, after, rfl, hbefore⟩ := List.find?_eq_some_iff_append.mp hfound
  have hskip : ∀ p ∈ before, ¬ (found p || PyValue.eq (.dict p) (.dict r)) = true := by
    intro p hp
    have heq := (List.pairwise_append.mp hapart).2.2 p hp r List.mem_cons_self
    have hnot := hbefore p hp
    rw [heq, Bool.or_false]
    simpa using hnot
  rw [removePhase, List.eraseP_append_right _ hskip, List.eraseP_cons_of_pos (by rw [hr]; rfl)]
  exact List.perm_middle

/-- Each phase that came and each that went is in one pair or is left over. -/
theorem detectRenames_perm (adds : List Dict) {rems : List Dict}
    (hapart : rems.Pairwise fun p q => PyValue.eq (.dict p) (.dict q) = false) :
    let pairing := detectRenames reprOf adds rems
    adds.Perm (pairing.renames.map Prod.snd ++ pairing.addsLeft) ∧
      rems.Perm (pairing.renames.map Prod.fst ++ pairing.remsLeft) := by
  induction adds generalizing rems with
  | nil => exact ⟨List.Perm.nil, List.Perm.refl _⟩
  | cons a adds ih =>
    dsimp only
    rw [detectRenames]
    dsimp only
    split
    · rename_i r hr
      split at hr
      · cases hr
      · have hperm := removePhase_perm hr hapart
        obtain ⟨hadds, hrems⟩ := ih (hapart.sublist (List.eraseP_sublist))
        exact ⟨hadds.cons a, hperm.trans (hrems.cons r)⟩
    · obtain ⟨hadds, hrems⟩ := ih hapart
      exact ⟨(hadds.cons a).trans List.perm_middle.symm, hrems⟩

/-! ## The events -/

theorem mkEvent_some {t : EvolutionType} {vo vn : String} {pid : PyValue} {detail : Dict}
    {rationale : String} {e : PhaseEvolutionEvent}
    (h : mkEvent t vo vn pid detail rationale = some e) :
    e.eventType = t ∧ pid = .text e.phaseId ∧ e.detail = detail ∧
      e.autoMigratable = canAutoMigrate t := by
  unfold mkEvent at h
  split at h
  · obtain rfl := Option.some.inj h
    exact ⟨rfl, rfl, rfl, rfl⟩
  · cases h

/-- Where every value gives an event, events are counted by the values they come from. -/
theorem countP_mapM {α : Type} {f : α → Option PhaseEvolutionEvent}
    {q : PhaseEvolutionEvent → Bool} {q' : α → Bool} (h : ∀ x e, f x = some e → q e = q' x)
    {xs : List α} {es : List PhaseEvolutionEvent} (hxs : xs.mapM f = some es) :
    es.countP q = xs.countP q' := by
  have hcount := congrArg (List.countP id) (Json.map_of_mapM h hxs)
  rw [List.countP_map, List.countP_map] at hcount
  exact hcount

theorem reorderedEvents_type {vo vn : String} {oOrder nOrder : List PyValue}
    {es : List PhaseEvolutionEvent} (h : reorderedEvents reprOf vo vn oOrder nOrder = some es) :
    ∀ e ∈ es, e.eventType = .phaseReordered := by
  unfold reorderedEvents at h
  dsimp only at h
  split at h
  · split at h
    · obtain ⟨e, he, h⟩ := Option.bind_eq_some_iff.mp h
      obtain rfl := Option.some.inj h
      intro e' he'
      obtain rfl := List.mem_singleton.mp he'
      exact (mkEvent_some he).1
    · obtain rfl := Option.some.inj h
      exact fun _ he => by cases he
  · obtain rfl := Option.some.inj h
    exact fun _ he => by cases he

/-- A field of a phase that is on both sides is the same, or there is an event about it. -/
theorem fieldEvents_some {t : EvolutionType} {field : String} {rationale : String → String}
    {vo vn : String} {oMap nMap : Dict} {pid : Atom} {es : List PhaseEvolutionEvent}
    (h : fieldEvents reprOf t field rationale vo vn oMap nMap pid = some es) :
    ∃ p q, Dict.get? oMap pid = some (.dict p) ∧ Dict.get? nMap pid = some (.dict q) ∧
      ((Dict.get p (.str field)).eq (Dict.get q (.str field)) = true ∧ es = [] ∨
        ∃ e, es = [e] ∧ e.eventType = t ∧ e.autoMigratable = canAutoMigrate t) := by
  have hdict : ∀ {d : Dict} {p : Dict}, (∃ v, Dict.get? d pid = some v ∧ v.asDict = some p) →
      Dict.get? d pid = some (.dict p) := by
    rintro d p ⟨v, hv, hp⟩
    cases v with
    | dict ms =>
      obtain rfl := Option.some.inj hp
      exact hv
    | atom | set | list => cases hp
  unfold fieldEvents at h
  simp only [Option.bind_eq_bind, Option.bind_eq_some_iff] at h
  obtain ⟨v, hv, p, hp, w, hw, q, hq, h⟩ := h
  refine ⟨p, q, hdict ⟨v, hv, hp⟩, hdict ⟨w, hw, hq⟩, ?_⟩
  split at h
  · rename_i heq
    obtain rfl := Option.some.inj h
    exact Or.inl ⟨heq, rfl⟩
  · obtain ⟨e, he, h⟩ := Option.bind_eq_some_iff.mp h
    obtain rfl := Option.some.inj h
    obtain ⟨htype, -, -, hauto⟩ := mkEvent_some he
    exact Or.inr ⟨e, rfl, htype, hauto⟩

def changedEvents (vo vn : String) (oMap nMap : Dict) (pid : Atom) :
    Option (List PhaseEvolutionEvent) := do
  return (← gateEvents reprOf vo vn oMap nMap pid) ++ (← rollbackEvents reprOf vo vn oMap nMap pid)

/-- The ids of both manifests, in the order of the set. -/
def commonIds (oMap nMap : Dict) : List Atom :=
  copySet ((oMap.map Prod.fst).filter fun k => (Dict.get? nMap k).isSome)

/-- What two manifests of different versions are compared by, and the events it gives. -/
structure Detection (vo vn : String) (old new : PipelineManifest)
    (events : List PhaseEvolutionEvent) where
  oMap : Dict
  nMap : Dict
  pairing : Pairing
  renamed : List PhaseEvolutionEvent
  added : List PhaseEvolutionEvent
  removed : List PhaseEvolutionEvent
  reordered : List PhaseEvolutionEvent
  changed : List (List PhaseEvolutionEvent)
  old_map : phaseMap old = some oMap
  new_map : phaseMap new = some nMap
  pairs : pairing =
    detectRenames reprOf (phasesOutside nMap oMap) (phasesOutside oMap nMap)
  renamed_eq : pairing.renames.mapM (renamedEvent reprOf vo vn) = some renamed
  added_eq : pairing.addsLeft.mapM (addedEvent reprOf vo vn) = some added
  removed_eq : pairing.remsLeft.mapM (removedEvent reprOf vo vn) = some removed
  reordered_eq : reorderedEvents reprOf vo vn ((phaseOrder old).filter (isKeyOf nMap))
    ((phaseOrder new).filter (isKeyOf oMap)) = some reordered
  changed_eq : (commonIds copySet oMap nMap).mapM (changedEvents reprOf vo vn oMap nMap) =
    some changed
  events_eq : events = renamed ++ added ++ removed ++ reordered ++ changed.flatten

variable {old new : PipelineManifest} {vo vn : String} {events : List PhaseEvolutionEvent}

theorem exists_detection (hvo : computePipelineVersion reprOf copySet old = some vo)
    (hvn : computePipelineVersion reprOf copySet new = some vn) (hne : vo ≠ vn)
    (h : detectEvolutionEvents reprOf copySet old new = some events) :
    Nonempty (Detection reprOf copySet vo vn old new events) := by
  simp only [detectEvolutionEvents, hvo, hvn, Option.bind_eq_bind, Option.bind_some, if_neg hne,
    Option.bind_eq_some_iff] at h
  obtain ⟨oMap, hold, nMap, hnew, renamed, hrenamed, added, hadded, removed, hremoved, reordered,
    hreordered, changed, hchanged, h⟩ := h
  exact ⟨⟨oMap, nMap, _, renamed, added, removed, reordered, changed, hold, hnew, rfl, hrenamed,
    hadded, hremoved, hreordered, hchanged, (Option.some.inj h).symm⟩⟩

theorem renamedEvent_some {pair : Dict × Dict} {e : PhaseEvolutionEvent}
    (h : renamedEvent reprOf vo vn pair = some e) :
    e.eventType = .phaseRenamed ∧ Dict.get e.detail (.str "from") = phaseId pair.1 ∧
      Dict.get e.detail (.str "to") = phaseId pair.2 := by
  obtain ⟨htype, -, hdetail, -⟩ := mkEvent_some h
  rw [hdetail]
  refine ⟨htype, ?_, ?_⟩
  · simp [Dict.get, Dict.get?]
  · simp [Dict.get, Dict.get?]

/-- What the events of one kind say about the phases they come from. -/
theorem renamedEvent_sides {pair : Dict × Dict} {e : PhaseEvolutionEvent}
    (h : renamedEvent reprOf vo vn pair = some e) (v : PyValue) :
    e.leaves v = (phaseId pair.1).eq v ∧ e.enters v = (phaseId pair.2).eq v := by
  obtain ⟨htype, hfrom, hto⟩ := renamedEvent_some reprOf h
  simp [PhaseEvolutionEvent.leaves, PhaseEvolutionEvent.enters, PhaseEvolutionEvent.names,
    PhaseEvolutionEvent.renames, htype, hfrom, hto]

theorem addedEvent_sides {p : Dict} {e : PhaseEvolutionEvent}
    (h : addedEvent reprOf vo vn p = some e) (v : PyValue) :
    e.leaves v = false ∧ e.enters v = (phaseId p).eq v := by
  obtain ⟨htype, hid, -⟩ := mkEvent_some h
  have hid : phaseId p = .text e.phaseId := hid
  simp [PhaseEvolutionEvent.leaves, PhaseEvolutionEvent.enters, PhaseEvolutionEvent.names,
    PhaseEvolutionEvent.renames, htype, hid]

theorem removedEvent_sides {p : Dict} {e : PhaseEvolutionEvent}
    (h : removedEvent reprOf vo vn p = some e) (v : PyValue) :
    e.leaves v = (phaseId p).eq v ∧ e.enters v = false := by
  obtain ⟨htype, hid, -⟩ := mkEvent_some h
  have hid : phaseId p = .text e.phaseId := hid
  simp [PhaseEvolutionEvent.leaves, PhaseEvolutionEvent.enters, PhaseEvolutionEvent.names,
    PhaseEvolutionEvent.renames, htype, hid]

theorem type_of_sides {v : PyValue} {e : PhaseEvolutionEvent}
    (h : e.leaves v = true ∨ e.enters v = true) :
    e.eventType ∈ [EvolutionType.phaseRenamed, .phaseAdded, .phaseRemoved] := by
  cases ht : e.eventType <;>
    simp [PhaseEvolutionEvent.leaves, PhaseEvolutionEvent.enters, PhaseEvolutionEvent.names,
      PhaseEvolutionEvent.renames, ht] at h ⊢

/-- A rename is about a phase that went and one that came. -/
theorem countP_renames_le (events : List PhaseEvolutionEvent) (v : PyValue) :
    events.countP (·.renames "from" v) ≤ events.countP (·.leaves v) ∧
      events.countP (·.renames "to" v) ≤ events.countP (·.enters v) := by
  constructor
  · refine List.countP_mono_left fun e _ he => ?_
    rw [PhaseEvolutionEvent.leaves, he, Bool.or_true]
  · refine List.countP_mono_left fun e _ he => ?_
    rw [PhaseEvolutionEvent.enters, he, Bool.or_true]

namespace Detection

variable {reprOf copySet} (D : Detection reprOf copySet vo vn old new events)
include D

theorem rest_type : ∀ e ∈ D.reordered ++ D.changed.flatten,
    e.eventType ∈ [EvolutionType.phaseReordered, .gateChanged, .rollbackChanged] := by
  have hfield : ∀ {t : EvolutionType} {field : String} {rationale : String → String}
      {pid : Atom} {es : List PhaseEvolutionEvent},
      fieldEvents reprOf t field rationale vo vn D.oMap D.nMap pid = some es →
        ∀ e ∈ es, e.eventType = t := by
    intro t field rationale pid es hes e he
    obtain ⟨-, -, -, -, ⟨-, rfl⟩ | ⟨e', rfl, htype, -⟩⟩ := fieldEvents_some reprOf hes
    · cases he
    · exact List.mem_singleton.mp he ▸ htype
  intro e he
  rcases List.mem_append.mp he with he | he
  · rw [reorderedEvents_type reprOf D.reordered_eq e he]
    simp
  · obtain ⟨es, hes, he⟩ := List.mem_flatten.mp he
    obtain ⟨pid, -, hpid⟩ := Json.exists_of_mem_mapM D.changed_eq hes
    obtain ⟨gs, hgs, hpid⟩ := Option.bind_eq_some_iff.mp hpid
    obtain ⟨rs, hrs, hpid⟩ := Option.bind_eq_some_iff.mp hpid
    obtain rfl := Option.some.inj hpid
    rcases List.mem_append.mp he with he | he
    · rw [hfield hgs e he]
      simp
    · rw [hfield hrs e he]
      simp

/-- Events of the other kinds are not counted. -/
theorem countP_eq {q : PhaseEvolutionEvent → Bool}
    (hq : ∀ e, q e = true → e.eventType ∈ [EvolutionType.phaseRenamed, .phaseAdded,
      .phaseRemoved]) :
    events.countP q = D.renamed.countP q + D.added.countP q + D.removed.countP q := by
  have hrest : (D.reordered ++ D.changed.flatten).countP q = 0 := by
    refine List.countP_eq_zero.mpr fun e he hqe => ?_
    have hmoves := hq e hqe
    have hstays := D.rest_type e he
    cases ht : e.eventType <;> simp [ht] at hmoves hstays
  refine (congrArg (List.countP q) D.events_eq).trans ?_
  rw [List.append_assoc, List.countP_append, hrest, List.countP_append, List.countP_append,
    Nat.add_zero]

theorem old_table (hold : UniqueIds old) : PhaseTable old D.oMap := phaseMap_table hold D.old_map

theorem new_table (hnew : UniqueIds new) : PhaseTable new D.nMap := phaseMap_table hnew D.new_map

theorem pairing_perm (hold : UniqueIds old) :
    (phasesOutside D.nMap D.oMap).Perm (D.pairing.renames.map Prod.snd ++ D.pairing.addsLeft) ∧
      (phasesOutside D.oMap D.nMap).Perm
        (D.pairing.renames.map Prod.fst ++ D.pairing.remsLeft) := by
  rw [D.pairs]
  exact detectRenames_perm reprOf _ (phasesOutside_apart (D.old_table hold) D.nMap)

/-- The phases that went are those of the pairs and those left over. -/
theorem countP_leaves (hold : UniqueIds old) (v : PyValue) :
    events.countP (·.leaves v) =
      (phasesOutside D.oMap D.nMap).countP fun p => (phaseId p).eq v := by
  rw [D.countP_eq fun e he => type_of_sides (Or.inl he),
    countP_mapM (fun _ _ h => (renamedEvent_sides reprOf h v).1) D.renamed_eq,
    countP_mapM (fun _ _ h => (addedEvent_sides reprOf h v).1) D.added_eq,
    countP_mapM (fun _ _ h => (removedEvent_sides reprOf h v).1) D.removed_eq,
    (D.pairing_perm hold).2.countP_eq, List.countP_append, List.countP_map, List.countP_false]
  rfl

theorem countP_enters (hold : UniqueIds old) (v : PyValue) :
    events.countP (·.enters v) =
      (phasesOutside D.nMap D.oMap).countP fun p => (phaseId p).eq v := by
  rw [D.countP_eq fun e he => type_of_sides (Or.inr he),
    countP_mapM (fun _ _ h => (renamedEvent_sides reprOf h v).2) D.renamed_eq,
    countP_mapM (fun _ _ h => (addedEvent_sides reprOf h v).2) D.added_eq,
    countP_mapM (fun _ _ h => (removedEvent_sides reprOf h v).2) D.removed_eq,
    (D.pairing_perm hold).1.countP_eq, List.countP_append, List.countP_map, List.countP_false]
  rfl

/-- A phase that went has an event that a person must look at. -/
theorem phasesOutside_nil (hold : UniqueIds old)
    (hauto : ∀ e ∈ events, e.autoMigratable = true) : phasesOutside D.oMap D.nMap = [] := by
  have hmem : ∀ e ∈ D.renamed ++ D.removed, e.autoMigratable = true := by
    intro e he
    apply hauto
    have hevents := D.events_eq
    rw [hevents]
    simp only [List.mem_append] at he ⊢
    tauto
  have hrenames : D.pairing.renames = [] := by
    refine List.eq_nil_iff_forall_not_mem.mpr fun pair hpair => ?_
    obtain ⟨e, he, hevent⟩ := Json.exists_mem_of_mapM D.renamed_eq hpair
    have hclosed := (mkEvent_some hevent).2.2.2
    rw [hmem e (List.mem_append_left _ he)] at hclosed
    cases hclosed
  have hleft : D.pairing.remsLeft = [] := by
    refine List.eq_nil_iff_forall_not_mem.mpr fun p hp => ?_
    obtain ⟨e, he, hevent⟩ := Json.exists_mem_of_mapM D.removed_eq hp
    have hclosed := (mkEvent_some hevent).2.2.2
    rw [hmem e (List.mem_append_right _ he)] at hclosed
    cases hclosed
  have hperm := (D.pairing_perm hold).2
  rw [hrenames, hleft] at hperm
  exact hperm.eq_nil

/-- Without an event that a person must look at, a field of a phase on both sides is the same. -/
theorem field_eq (hauto : ∀ e ∈ events, e.autoMigratable = true) {t : EvolutionType}
    (ht : canAutoMigrate t = false) {field : String} {rationale : String → String} {pid : Atom}
    {es : List PhaseEvolutionEvent}
    (hes : fieldEvents reprOf t field rationale vo vn D.oMap D.nMap pid = some es)
    (hsub : ∀ e ∈ es, e ∈ D.changed.flatten) :
    ∃ p q, Dict.get? D.oMap pid = some (.dict p) ∧ Dict.get? D.nMap pid = some (.dict q) ∧
      (Dict.get p (.str field)).eq (Dict.get q (.str field)) = true := by
  obtain ⟨p, q, hp, hq, ⟨heq, -⟩ | ⟨e, rfl, -, hclosed⟩⟩ := fieldEvents_some reprOf hes
  · exact ⟨p, q, hp, hq, heq⟩
  · have hevents := D.events_eq
    have he : e ∈ events := by
      rw [hevents]
      exact List.mem_append_right _ (hsub e List.mem_cons_self)
    rw [hauto e he, ht] at hclosed
    cases hclosed

theorem kept (hold : UniqueIds old) (hnew : UniqueIds new)
    (hcopy : ∀ ids, (copySet ids).Perm ids)
    (hauto : ∀ e ∈ events, e.autoMigratable = true) {p : Dict} (hp : p ∈ old.phases)
    (hid : (phaseId p).truthy = true) : PhaseKept p new := by
  have hotable := D.old_table hold
  obtain ⟨a, ha, hentry⟩ := hotable.entry p hp hid
  have hself : a.same a = true := by
    have hv := hold.comparable (.atom a) (hotable.order ▸ List.mem_map_of_mem hentry)
    rw [PyValue.eq] at hv
    exact hv
  have hget := get?_of_mem hotable.apart hentry hself
  have hthere : (Dict.get? D.nMap a).isSome = true := by
    by_contra hnot
    rw [Bool.not_eq_true, Option.isSome_eq_false_iff, Option.isNone_iff_eq_none] at hnot
    have hout := (mem_phasesOutside hotable).mpr ⟨a, ha, hentry, hnot⟩
    rw [D.phasesOutside_nil hold hauto] at hout
    cases hout
  have hcommon : a ∈ commonIds copySet D.oMap D.nMap := by
    refine (hcopy _).mem_iff.mpr (List.mem_filter.mpr ⟨?_, hthere⟩)
    exact List.mem_map.mpr ⟨_, hentry, rfl⟩
  obtain ⟨es, hes, hchanged⟩ := Json.exists_mem_of_mapM D.changed_eq hcommon
  obtain ⟨gs, hgs, hchanged⟩ := Option.bind_eq_some_iff.mp hchanged
  obtain ⟨rs, hrs, hchanged⟩ := Option.bind_eq_some_iff.mp hchanged
  obtain rfl := Option.some.inj hchanged
  obtain ⟨p', q, hp', hq, hgate⟩ := D.field_eq hauto rfl hgs fun e he =>
    List.mem_flatten.mpr ⟨_, hes, List.mem_append_left _ he⟩
  obtain ⟨p'', q', hp'', hq', hrollback⟩ := D.field_eq hauto rfl hrs fun e he =>
    List.mem_flatten.mpr ⟨_, hes, List.mem_append_right _ he⟩
  obtain rfl := PyValue.dict.inj (Option.some.inj (hget.symm.trans hp'))
  obtain rfl := PyValue.dict.inj (Option.some.inj (hget.symm.trans hp''))
  obtain rfl := PyValue.dict.inj (Option.some.inj (hq.symm.trans hq'))
  obtain ⟨k, hk, hka⟩ := mem_of_get? hq
  obtain ⟨q', hqm, hqeq, hqid, -⟩ := (D.new_table hnew).phase _ hk
  obtain rfl := PyValue.dict.inj hqeq
  refine ⟨_, hqm, ?_, hgate, hrollback⟩
  rw [hqid, ha, PyValue.eq]
  exact hka

end Detection

/-- An id of one map that the manifest of the other does not have. -/
theorem countP_of_missing {m m' : PipelineManifest} {d d' : Dict} (hd : PhaseTable m d)
    (hd' : PhaseTable m' d') (hunique : UniqueIds m) {v : PyValue} (hv : v ∈ phaseOrder m)
    (hmissing : Missing v m') :
    (phasesOutside d d').countP (fun p => (phaseId p).eq v) = 1 := by
  have hself := hunique.comparable v hv
  rw [hd.order] at hv
  obtain ⟨e, he, rfl⟩ := List.mem_map.mp hv
  rw [PyValue.eq] at hself
  have hnone : Dict.get? d' e.1 = none := by
    rw [← Option.not_isSome_iff_eq_none, get?_isSome, List.any_eq_true]
    rintro ⟨k, hk, hke⟩
    obtain ⟨e', he', rfl⟩ := List.mem_map.mp hk
    have hapart := hmissing (.atom e'.1) (hd'.order ▸ List.mem_map_of_mem he')
    rw [PyValue.eq, hke] at hapart
    cases hapart
  rw [countP_phasesOutside hd, get?_of_mem hd.apart he hself, hnone]
  rfl

theorem countP_phasesOutside_zero {m : PipelineManifest} {d : Dict} (hd : PhaseTable m d)
    {v : PyValue} (hv : ∀ a, (PyValue.atom a).eq v = false) (other : Dict) :
    (phasesOutside d other).countP (fun p => (phaseId p).eq v) = 0 := by
  refine List.countP_eq_zero.mpr fun p hp heq => ?_
  obtain ⟨a, ha, -⟩ := (mem_phasesOutside hd).mp hp
  rw [ha, hv a] at heq
  cases heq

/-- No id is outside both maps. -/
theorem countP_phasesOutside_le {m m' : PipelineManifest} {d d' : Dict} (hd : PhaseTable m d)
    (hd' : PhaseTable m' d') (v : PyValue) :
    (phasesOutside d d').countP (fun p => (phaseId p).eq v) +
      (phasesOutside d' d).countP (fun p => (phaseId p).eq v) ≤ 1 := by
  cases v with
  | atom a =>
    rw [countP_phasesOutside hd, countP_phasesOutside hd']
    cases Dict.get? d a <;> cases Dict.get? d' a <;> simp
  | set | list | dict =>
    rw [countP_phasesOutside_zero hd fun a => by simp [PyValue.eq],
      countP_phasesOutside_zero hd' fun a => by simp [PyValue.eq]]
    exact Nat.zero_le 1

theorem accounted (hcopy : ∀ ids, (copySet ids).Perm ids) (hold : UniqueIds old)
    (hnew : UniqueIds new) (D : Detection reprOf copySet vo vn old new events) :
    Accounted old new events := by
  have hotable := D.old_table hold
  have hntable := D.new_table hnew
  constructor
  · intro v hv hmissing
    rw [D.countP_leaves hold]
    exact countP_of_missing hotable hntable hold hv hmissing
  · intro v hv hmissing
    rw [D.countP_enters hold]
    exact countP_of_missing hntable hotable hnew hv hmissing
  · intro v
    obtain ⟨hfrom, hto⟩ := countP_renames_le events v
    have hone := countP_phasesOutside_le hotable hntable v
    rw [← D.countP_leaves hold, ← D.countP_enters hold] at hone
    omega
  · intro hauto p hp hid
    exact D.kept hold hnew hcopy hauto hp hid

/-! ## Ids that are texts -/

def TextIds (m : PipelineManifest) : Prop := ∀ v ∈ phaseOrder m, ∃ s, v = .text s

theorem exists_phaseMap {m : PipelineManifest} (h : TextIds m) : ∃ d, phaseMap m = some d := by
  have hfold : ∀ (ps : List Dict) (out : Dict),
      (∀ p ∈ ps, (phaseId p).truthy = true → ∃ s, phaseId p = .text s) →
        ∃ d, ps.foldlM registerPhase out = some d := by
    intro ps
    induction ps with
    | nil => exact fun out _ => ⟨out, rfl⟩
    | cons p ps ih =>
      intro out hps
      obtain ⟨hp, hps⟩ := List.forall_mem_cons.mp hps
      rw [List.foldlM_cons, registerPhase]
      split
      · rename_i hid
        obtain ⟨s, hs⟩ := hp hid
        rw [hs]
        exact ih _ hps
      · exact ih out hps
  refine hfold m.phases [] fun p hp hid => h _ ?_
  exact List.mem_filter.mpr ⟨List.mem_map_of_mem hp, hid⟩

theorem exists_event {t : EvolutionType} {pid : PyValue} (h : ∃ s, pid = .text s)
    (detail : Dict) (rationale : String) :
    ∃ e, mkEvent t vo vn pid detail rationale = some e := by
  obtain ⟨s, rfl⟩ := h
  exact ⟨_, rfl⟩

theorem exists_reorderedEvents (oOrder : List PyValue) {nOrder : List PyValue}
    (h : ∀ v ∈ nOrder, ∃ s, v = .text s) :
    ∃ es, reorderedEvents reprOf vo vn oOrder nOrder = some es := by
  unfold reorderedEvents
  dsimp only
  split
  · split
    · rename_i pid hpid
      have hmem := List.mem_of_find?_eq_some hpid
      obtain ⟨e, he⟩ := exists_event (h pid.1 (List.fst_mem_of_mem_zipIdx hmem)) _ _
      exact ⟨[e], by rw [he]; rfl⟩
    · exact ⟨[], rfl⟩
  · exact ⟨[], rfl⟩

theorem exists_fieldEvents (t : EvolutionType) (field : String) (rationale : String → String)
    {oMap nMap p q : Dict} {pid : Atom} (ho : Dict.get? oMap pid = some (.dict p))
    (hn : Dict.get? nMap pid = some (.dict q)) (hpid : ∃ s, PyValue.atom pid = .text s) :
    ∃ es, fieldEvents reprOf t field rationale vo vn oMap nMap pid = some es := by
  unfold fieldEvents
  simp only [ho, hn, Option.bind_eq_bind, Option.bind_some, PyValue.asDict]
  split
  · exact ⟨[], rfl⟩
  · obtain ⟨e, he⟩ := exists_event hpid _ _
    exact ⟨[e], by rw [he]; rfl⟩

theorem PhaseTable.text {m : PipelineManifest} {d : Dict} (hd : PhaseTable m d)
    (htext : TextIds m) {e : Atom × PyValue} (he : e ∈ d) : ∃ s, PyValue.atom e.1 = .text s :=
  htext _ (hd.order ▸ List.mem_map_of_mem he)

theorem phaseId_text {m : PipelineManifest} {d other : Dict} (hd : PhaseTable m d)
    (htext : TextIds m) {p : Dict} (hp : p ∈ phasesOutside d other) :
    ∃ s, phaseId p = .text s := by
  obtain ⟨a, ha, hentry, -⟩ := (mem_phasesOutside hd).mp hp
  exact ha ▸ hd.text htext hentry

theorem exists_changedEvents {oMap nMap : Dict} (ho : PhaseTable old oMap)
    (hn : PhaseTable new nMap) (htext : TextIds old) (hold : UniqueIds old) {pid : Atom}
    (hpid : pid ∈ (oMap.map Prod.fst).filter fun k => (Dict.get? nMap k).isSome) :
    ∃ es, changedEvents reprOf vo vn oMap nMap pid = some es := by
  obtain ⟨hkey, hthere⟩ := List.mem_filter.mp hpid
  obtain ⟨e, he, rfl⟩ := List.mem_map.mp hkey
  obtain ⟨w, hw⟩ := Option.isSome_iff_exists.mp hthere
  obtain ⟨k, hk, -⟩ := mem_of_get? hw
  obtain ⟨q, -, hq, -⟩ := hn.phase _ hk
  obtain ⟨p, -, hp, -⟩ := ho.phase e he
  have hself := hold.comparable (.atom e.1) (ho.order ▸ List.mem_map_of_mem he)
  rw [PyValue.eq] at hself
  have hget : Dict.get? oMap e.1 = some (.dict p) :=
    get?_of_mem ho.apart (k := e.1) (hp ▸ he) hself
  have hget' : Dict.get? nMap e.1 = some (.dict q) := hw.trans (congrArg some hq)
  have hid := ho.text htext he
  have hgate : ∃ gs, gateEvents reprOf vo vn oMap nMap e.1 = some gs :=
    exists_fieldEvents reprOf _ _ _ hget hget' hid
  have hrollback : ∃ rs, rollbackEvents reprOf vo vn oMap nMap e.1 = some rs :=
    exists_fieldEvents reprOf _ _ _ hget hget' hid
  obtain ⟨gs, hgs⟩ := hgate
  obtain ⟨rs, hrs⟩ := hrollback
  exact ⟨gs ++ rs, by rw [changedEvents, hgs, hrs]; rfl⟩

/-- With texts for ids the events are there. -/
theorem exists_events (hcopy : ∀ ids, (copySet ids).Perm ids) (hold : UniqueIds old)
    (hnew : UniqueIds new) (hotext : TextIds old) (hntext : TextIds new)
    (hvo : computePipelineVersion reprOf copySet old = some vo)
    (hvn : computePipelineVersion reprOf copySet new = some vn) :
    ∃ events, detectEvolutionEvents reprOf copySet old new = some events := by
  obtain ⟨oMap, hoMap⟩ := exists_phaseMap hotext
  obtain ⟨nMap, hnMap⟩ := exists_phaseMap hntext
  have hotable := phaseMap_table hold hoMap
  have hntable := phaseMap_table hnew hnMap
  obtain ⟨hadds, hrems⟩ := detectRenames_perm reprOf (phasesOutside nMap oMap)
    (phasesOutside_apart hotable nMap)
  set pairing := detectRenames reprOf (phasesOutside nMap oMap) (phasesOutside oMap nMap)
    with hpairing
  have hrenamed : ∃ es, pairing.renames.mapM (renamedEvent reprOf vo vn) = some es := by
    refine exists_mapM fun pair hpair => exists_event ?_ _ _
    exact phaseId_text hntable hntext
      (hadds.mem_iff.mpr (List.mem_append_left _ (List.mem_map_of_mem hpair)))
  have hadded : ∃ es, pairing.addsLeft.mapM (addedEvent reprOf vo vn) = some es := by
    refine exists_mapM fun p hp => exists_event ?_ _ _
    exact phaseId_text hntable hntext (hadds.mem_iff.mpr (List.mem_append_right _ hp))
  have hremoved : ∃ es, pairing.remsLeft.mapM (removedEvent reprOf vo vn) = some es := by
    refine exists_mapM fun p hp => exists_event ?_ _ _
    exact phaseId_text hotable hotext (hrems.mem_iff.mpr (List.mem_append_right _ hp))
  have hreordered : ∃ es, reorderedEvents reprOf vo vn ((phaseOrder old).filter (isKeyOf nMap))
      ((phaseOrder new).filter (isKeyOf oMap)) = some es :=
    exists_reorderedEvents reprOf _ fun v hv => hntext v (List.mem_filter.mp hv).1
  have hchanged : ∃ ess, (commonIds copySet oMap nMap).mapM
      (changedEvents reprOf vo vn oMap nMap) = some ess := by
    refine exists_mapM fun pid hpid => ?_
    exact exists_changedEvents reprOf hotable hntable hotext hold ((hcopy _).mem_iff.mp hpid)
  obtain ⟨renamed, hrenamed⟩ := hrenamed
  obtain ⟨added, hadded⟩ := hadded
  obtain ⟨removed, hremoved⟩ := hremoved
  obtain ⟨reordered, hreordered⟩ := hreordered
  obtain ⟨changed, hchanged⟩ := hchanged
  simp only [detectEvolutionEvents, hvo, hvn, Option.bind_eq_bind, Option.bind_some]
  split
  · exact ⟨[], rfl⟩
  · simp only [hoMap, hnMap, Option.bind_some, ← hpairing, hrenamed, hadded, hremoved, hreordered]
    refine ⟨_, Option.bind_eq_some_iff.mpr ⟨changed, hchanged, rfl⟩⟩

/-- Two versions of a manifest, each with an id for every phase: the phases that changed are
accounted for, and what needs no person changes none of the old ones. -/
theorem detectEvolutionEvents_accounted (hcopy : ∀ ids, (copySet ids).Perm ids)
    (hold : UniqueIds old) (hnew : UniqueIds new)
    (hvo : computePipelineVersion reprOf copySet old = some vo)
    (hvn : computePipelineVersion reprOf copySet new = some vn) (hne : vo ≠ vn) :
    (TextIds old → TextIds new →
      ∃ events, detectEvolutionEvents reprOf copySet old new = some events) ∧
    ∀ events, detectEvolutionEvents reprOf copySet old new = some events →
      Accounted old new events := by
  refine ⟨fun hotext hntext =>
    exists_events reprOf copySet hcopy hold hnew hotext hntext hvo hvn, fun events h => ?_⟩
  obtain ⟨D⟩ := exists_detection reprOf copySet hvo hvn hne h
  exact accounted reprOf copySet hcopy hold hnew D

end

/-- Phases that all look the same. -/
def twinPipeline (ids : List String) : PipelineManifest :=
  { buildPipeline "build" with
    phases := ids.map fun pid =>
      [(.str "id", .text pid), (.str "label", .text "Build"), (.str "artifact", .text "Code")] }

/-- Two phases went and two came, any of which could be any other. -/
theorem detectEvolutionEvents_accounted_twins : ∃ events,
    detectEvolutionEvents (fun _ => "") id (twinPipeline ["build", "pack", "ship"])
      (twinPipeline ["ship", "make", "bundle", "sign"]) = some events ∧
    Accounted (twinPipeline ["build", "pack", "ship"])
      (twinPipeline ["ship", "make", "bundle", "sign"]) events := by
  have hversions : ((computePipelineVersion (fun _ => "") id
      (twinPipeline ["build", "pack", "ship"])).bind fun vo =>
        (computePipelineVersion (fun _ => "") id
          (twinPipeline ["ship", "make", "bundle", "sign"])).map fun vn =>
            decide (vo ≠ vn)) = some true := by
    decide +kernel
  obtain ⟨vo, hvo, hversions⟩ := Option.bind_eq_some_iff.mp hversions
  obtain ⟨vn, hvn, hne⟩ := Option.map_eq_some_iff.mp hversions
  obtain ⟨hevents, haccounted⟩ := detectEvolutionEvents_accounted (fun _ => "") id
    (fun _ => List.Perm.refl _) ⟨by decide +kernel, by decide +kernel⟩
    ⟨by decide +kernel, by decide +kernel⟩ hvo hvn (of_decide_eq_true hne)
  have htext : ∀ ids : List String, TextIds (twinPipeline ids) := by
    intro ids v hv
    obtain ⟨p, hp, rfl⟩ := List.mem_map.mp (List.mem_filter.mp hv).1
    obtain ⟨pid, -, rfl⟩ := List.mem_map.mp hp
    exact ⟨pid, by simp [Dict.get, Dict.get?]⟩
  obtain ⟨events, h⟩ := hevents (htext _) (htext _)
  exact ⟨events, h, haccounted events h⟩

end SpineFormal.Plan
