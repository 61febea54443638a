import Mathlib.Data.List.Induction
import SpineFormal.Json.Jsonb

/-!
# Consent to learning across organisations

`learning/consent.py` over the table `spine_learning.scope_policy`. A scope is a hub, a
project or both; a policy has one flag for all categories and a map of categories that
wins over it. A revocation is written as a record like a grant and merged into the row of
its scope. The upsert finds that row by a unique key, in which a `NULL` equals nothing.
-/

namespace SpineFormal.Learning

open Json (NoNul)
set_option autoImplicit false

/-! ## Categories -/

abbrev Granular := List (String × Bool)

namespace Granular

def get? (g : Granular) (cat : String) : Option Bool := (g.find? (·.1 = cat)).map Prod.snd

/-- `out[k] = v`. -/
def set : Granular → String → Bool → Granular
  | [], cat, b => [(cat, b)]
  | m :: g, cat, b => if m.1 = cat then (cat, b) :: g else m :: set g cat b

/-- A jsonb column has no key with a NUL character. -/
def Stored (g : Granular) : Prop := ∀ m ∈ g, NoNul m.1

instance : DecidablePred Stored := fun g => inferInstanceAs (Decidable (∀ m ∈ g, NoNul m.1))

end Granular

/-- `_merge_granular`. -/
def mergeGranular (existing incoming : Granular) : Granular :=
  incoming.foldl (fun out m => out.set m.1 m.2) existing

def knownDataCategories : List String :=
  ["calibration_outcomes", "role_success_rates", "pattern_frequencies"]

/-! ## Policies -/

structure Scope (Uuid : Type) where
  hubId : Option Uuid
  projectId : Option Uuid
  deriving DecidableEq

/-- Both parts of the unique key are given. -/
def Scope.Complete {Uuid : Type} (s : Scope Uuid) : Prop :=
  s.hubId.isSome = true ∧ s.projectId.isSome = true

instance {Uuid : Type} (s : Scope Uuid) : Decidable s.Complete :=
  inferInstanceAs (Decidable (_ ∧ _))

/-- A row of `spine_learning.scope_policy`. -/
structure ScopePolicy (Uuid : Type) where
  scope : Scope Uuid
  withinHubEnabled : Bool
  crossOrgConsent : Bool
  granularConsent : Granular
  stored : granularConsent.Stored

/-- `cross_org_for`. -/
def ScopePolicy.crossOrgFor {Uuid : Type} (p : ScopePolicy Uuid) (dataCategory : String) : Bool :=
  if dataCategory = "" then p.crossOrgConsent
  else (p.granularConsent.get? dataCategory).getD p.crossOrgConsent

abbrev PolicyTable (Uuid : Type) := List (ScopePolicy Uuid)

/-- `SELECT … LIMIT 1` without an order: some row, when there is one. -/
structure Limit1 where
  pick : {α : Type} → List α → Option α
  mem : ∀ {α : Type} {xs : List α} {x : α}, pick xs = some x → x ∈ xs
  exists_pick : ∀ {α : Type} {xs : List α}, xs ≠ [] → ∃ x, pick xs = some x

structure ConsentRecord where
  hubId : Option String
  projectId : Option String
  crossOrgConsent : Bool
  granular : Granular

/-- `ConsentRecord.validate`; `false` is `ValueError`. -/
def ConsentRecord.validate (r : ConsentRecord) : Bool :=
  r.hubId.getD "" ≠ "" || r.projectId.getD "" ≠ ""

inductive ConsentCall where
  | grant (record : ConsentRecord)
  | revoke (hubId projectId : Option String) (category : Option String)

/-- The record that is written. -/
def ConsentCall.record : ConsentCall → ConsentRecord
  | .grant record => record
  | .revoke hubId projectId none =>
    { hubId, projectId
      crossOrgConsent := false
      granular := knownDataCategories.map fun cat => (cat, false) }
  | .revoke hubId projectId (some category) =>
    { hubId, projectId
      crossOrgConsent := true
      granular := [(category, false)] }

section
variable {Uuid : Type} [DecidableEq Uuid]

def rowsOf (s : Scope Uuid) (t : PolicyTable Uuid) : PolicyTable Uuid := t.filter (·.scope = s)

/-- `DO UPDATE`, on the row with the key. -/
def doUpdate (row old : ScopePolicy Uuid) : ScopePolicy Uuid :=
  if old.scope = row.scope then { row with withinHubEnabled := old.withinHubEnabled } else old

/-- `INSERT … ON CONFLICT (hub_id, project_id) DO UPDATE`. -/
def upsert (t : PolicyTable Uuid) (row : ScopePolicy Uuid) : PolicyTable Uuid :=
  if row.scope.Complete ∧ rowsOf row.scope t ≠ [] then t.map (doUpdate row) else t ++ [row]

section
-- `'…'::uuid`; `none` is an error of the server
variable (uuidOf : String → Option Uuid)

def idOf : Option String → Option (Option Uuid)
  | none => some none
  | some s => (uuidOf s).map some

def ConsentRecord.scope (r : ConsentRecord) : Option (Scope Uuid) := do
  return { hubId := ← idOf uuidOf r.hubId, projectId := ← idOf uuidOf r.projectId }

variable (limit1 : Limit1)

/-- `existing_g`. -/
def existingGranular (limit1 : Limit1) (s : Scope Uuid) (t : PolicyTable Uuid) : Granular :=
  ((limit1.pick (rowsOf s t)).map ScopePolicy.granularConsent).getD []

/-- `_default_writer`; `none` is an exception. -/
def defaultWriter (t : PolicyTable Uuid) (r : ConsentRecord) : Option (PolicyTable Uuid) := do
  let scope ← r.scope uuidOf
  let merged := mergeGranular (existingGranular limit1 scope t) r.granular
  if h : merged.Stored then
    return upsert t
      { scope
        withinHubEnabled := true
        crossOrgConsent := r.crossOrgConsent
        granularConsent := merged
        stored := h }
  else none

/-- `grant_cross_org_consent` and `revoke_cross_org_consent`. -/
def ConsentCall.run (t : PolicyTable Uuid) (call : ConsentCall) : Option (PolicyTable Uuid) :=
  if call.record.validate then defaultWriter uuidOf limit1 t call.record else none

/-- A call that raises leaves the table as it was. -/
def ConsentCall.after (t : PolicyTable Uuid) (call : ConsentCall) : PolicyTable Uuid :=
  (call.run uuidOf limit1 t).getD t

def policyTable (history : List ConsentCall) : PolicyTable Uuid :=
  history.foldl (ConsentCall.after uuidOf limit1) []

end

end

/-! ## What a map holds after a merge -/

theorem get?_set (g : Granular) (cat : String) (b : Bool) (cat' : String) :
    (g.set cat b).get? cat' = if cat = cat' then some b else g.get? cat' := by
  induction g with
  | nil =>
    rw [Granular.set, Granular.get?, List.find?_singleton]
    by_cases h : cat = cat' <;> simp [h, Granular.get?]
  | cons m g ih =>
    rw [Granular.set]
    by_cases hm : m.1 = cat
    · rw [if_pos hm]
      by_cases h : cat = cat' <;> simp [Granular.get?, hm, h]
    · rw [if_neg hm]
      by_cases h : m.1 = cat'
      · have hne : cat ≠ cat' := fun heq => hm (h.trans heq.symm)
        simp [Granular.get?, h, hne]
      · simpa [Granular.get?, h] using ih

theorem keys_set (g : Granular) (cat : String) (b : Bool) (k : String) :
    k ∈ (g.set cat b).map Prod.fst ↔ k = cat ∨ k ∈ g.map Prod.fst := by
  induction g with
  | nil => simp [Granular.set]
  | cons m g ih =>
    rw [Granular.set]
    split
    · rename_i hm
      simp [hm]
    · rw [List.map_cons, List.mem_cons, ih, List.map_cons, List.mem_cons]
      exact or_left_comm

/-- A revocation only sets categories to `False`. -/
theorem get?_mergeGranular {incoming : Granular} (h : ∀ m ∈ incoming, m.2 = false)
    (existing : Granular) (cat : String) :
    (mergeGranular existing incoming).get? cat =
      if cat ∈ incoming.map Prod.fst then some false else existing.get? cat := by
  induction incoming generalizing existing with
  | nil => rfl
  | cons m incoming ih =>
    obtain ⟨hm, hincoming⟩ := List.forall_mem_cons.mp h
    have hstep : mergeGranular existing (m :: incoming) =
      mergeGranular (existing.set m.1 m.2) incoming := rfl
    rw [hstep, ih hincoming, get?_set, hm, List.map_cons]
    by_cases hmem : cat ∈ incoming.map Prod.fst
    · rw [if_pos hmem, if_pos (List.mem_cons_of_mem _ hmem)]
    · by_cases hcat : m.1 = cat
      · rw [if_neg hmem, if_pos hcat, if_pos (hcat ▸ List.mem_cons_self)]
      · have hno : cat ∉ m.1 :: incoming.map Prod.fst :=
          fun h => (List.mem_cons.mp h).elim (fun heq => hcat heq.symm) hmem
        rw [if_neg hmem, if_neg hcat, if_neg hno]

theorem stored_iff (g : Granular) : g.Stored ↔ ∀ k ∈ g.map Prod.fst, NoNul k := by
  rw [List.forall_mem_map]
  rfl

theorem stored_mergeGranular {existing incoming : Granular} (h : existing.Stored) :
    (mergeGranular existing incoming).Stored ↔ incoming.Stored := by
  have hkeys : ∀ (existing : Granular) k, k ∈ (mergeGranular existing incoming).map Prod.fst ↔
      k ∈ existing.map Prod.fst ∨ k ∈ incoming.map Prod.fst := by
    induction incoming with
    | nil => simp [mergeGranular]
    | cons m incoming ih =>
      intro existing k
      have hstep : mergeGranular existing (m :: incoming) =
        mergeGranular (existing.set m.1 m.2) incoming := rfl
      rw [hstep, ih, keys_set, List.map_cons, List.mem_cons]
      tauto
  rw [stored_iff, stored_iff]
  simp only [hkeys]
  constructor
  · exact fun hall k hk => hall k (Or.inr hk)
  · rintro hall k (hk | hk)
    · exact (stored_iff existing).mp h k hk
    · exact hall k hk

/-! ## What a call does to the rows of a scope -/

section
variable {Uuid : Type} [DecidableEq Uuid]

theorem scope_doUpdate (row old : ScopePolicy Uuid) : (doUpdate row old).scope = old.scope := by
  rw [doUpdate]
  split
  · rename_i h
    exact h.symm
  · rfl

theorem rowsOf_doUpdate (s : Scope Uuid) (row : ScopePolicy Uuid) (t : PolicyTable Uuid) :
    rowsOf s (t.map (doUpdate row)) = (rowsOf s t).map (doUpdate row) := by
  rw [rowsOf, rowsOf, List.filter_map]
  congr 1
  exact List.filter_congr fun old _ => by rw [Function.comp_apply, scope_doUpdate]

theorem rowsOf_upsert_ne {t : PolicyTable Uuid} {row : ScopePolicy Uuid} {s : Scope Uuid}
    (h : row.scope ≠ s) : rowsOf s (upsert t row) = rowsOf s t := by
  rw [upsert]
  split
  · rw [rowsOf_doUpdate]
    refine Eq.trans (List.map_congr_left fun old hold => ?_) (List.map_id _)
    have hscope : old.scope = s := by simpa using (List.mem_filter.mp hold).2
    exact if_neg fun heq => h (heq.symm.trans hscope)
  · rw [rowsOf, List.filter_append]
    simp [rowsOf, h]

/-- Under a full key, or for a scope that has no row yet, the row that is written is the
only one. -/
theorem rowsOf_upsert {t : PolicyTable Uuid} {row : ScopePolicy Uuid}
    (hone : (rowsOf row.scope t).length ≤ 1)
    (hkey : row.scope.Complete ∨ rowsOf row.scope t = []) :
    ∃ row', rowsOf row.scope (upsert t row) = [row'] ∧
      row'.crossOrgConsent = row.crossOrgConsent ∧ row'.granularConsent = row.granularConsent := by
  rw [upsert]
  by_cases hrows : rowsOf row.scope t = []
  · rw [if_neg fun h => h.2 hrows, rowsOf, List.filter_append]
    rw [rowsOf] at hrows
    exact ⟨row, by rw [hrows]; simp, rfl, rfl⟩
  · rw [if_pos ⟨hkey.resolve_right hrows, hrows⟩, rowsOf_doUpdate]
    obtain ⟨old, hold⟩ : ∃ old, rowsOf row.scope t = [old] := by
      rw [← List.length_eq_one_iff]
      have hpos := List.length_pos_iff.mpr hrows
      omega
    have hscope : old.scope = row.scope := by
      have hmem : old ∈ rowsOf row.scope t := hold ▸ List.mem_singleton_self old
      simpa using (List.mem_filter.mp hmem).2
    have hupdate : doUpdate row old = { row with withinHubEnabled := old.withinHubEnabled } :=
      if_pos hscope
    exact ⟨{ row with withinHubEnabled := old.withinHubEnabled },
      by rw [hold, List.map_singleton, hupdate], rfl, rfl⟩

/-- Under a part of the key, a second row is written. -/
theorem rowsOf_upsert_incomplete {t : PolicyTable Uuid} {row : ScopePolicy Uuid}
    (hkey : ¬ row.scope.Complete) :
    rowsOf row.scope (upsert t row) = rowsOf row.scope t ++ [row] := by
  rw [upsert, if_neg fun h => hkey h.1, rowsOf, List.filter_append]
  simp [rowsOf]

variable (uuidOf : String → Option Uuid)

/-- The scope that a call writes to; `none` when the call raises. -/
def ConsentCall.target (call : ConsentCall) : Option (Scope Uuid) :=
  if call.record.validate = true ∧ call.record.granular.Stored then call.record.scope uuidOf
  else none

theorem stored_existing (limit1 : Limit1) (s : Scope Uuid) (t : PolicyTable Uuid) :
    (existingGranular limit1 s t).Stored := by
  rw [existingGranular]
  cases limit1.pick (rowsOf s t) with
  | none => exact fun _ hm => absurd hm List.not_mem_nil
  | some row => exact row.stored

/-- What a call does: nothing, or one upsert. -/
theorem after_cases (limit1 : Limit1) (t : PolicyTable Uuid) (call : ConsentCall) :
    (call.target uuidOf = none ∧ call.after uuidOf limit1 t = t) ∨
      ∃ row, call.target uuidOf = some row.scope ∧ call.after uuidOf limit1 t = upsert t row ∧
        row.crossOrgConsent = call.record.crossOrgConsent ∧
        row.granularConsent =
          mergeGranular (existingGranular limit1 row.scope t) call.record.granular := by
  rw [ConsentCall.after, ConsentCall.run, ConsentCall.target]
  by_cases hvalid : call.record.validate = true
  · rw [if_pos hvalid, defaultWriter]
    cases hscope : call.record.scope uuidOf with
    | none => exact Or.inl ⟨by split <;> rfl, rfl⟩
    | some s =>
      have hstored := @stored_mergeGranular _ call.record.granular (stored_existing limit1 s t)
      by_cases hgranular : call.record.granular.Stored
      · refine Or.inr ⟨⟨s, true, call.record.crossOrgConsent, _, hstored.mpr hgranular⟩,
          if_pos ⟨hvalid, hgranular⟩, ?_, rfl, rfl⟩
        change Option.getD (dite _ _ _) t = _
        rw [dif_pos (hstored.mpr hgranular)]
        rfl
      · refine Or.inl ⟨if_neg fun h => hgranular h.2, ?_⟩
        change Option.getD (dite _ _ _) t = _
        rw [dif_neg fun h => hgranular (hstored.mp h)]
        rfl
  · rw [if_neg hvalid]
    exact Or.inl ⟨if_neg fun h => hvalid h.1, rfl⟩

/-! ## One call -/

/-- Some policy of the scope permits the category. -/
def Permitted (t : PolicyTable Uuid) (s : Scope Uuid) (cat : String) : Prop :=
  ∃ row ∈ rowsOf s t, row.crossOrgFor cat = true

def OneRow (t : PolicyTable Uuid) : Prop := ∀ s, (rowsOf s t).length ≤ 1

omit [DecidableEq Uuid] in
theorem crossOrgFor_of_granular {p : ScopePolicy Uuid} {cat : String} (hcat : cat ≠ "")
    (h : p.granularConsent.get? cat = some true) : p.crossOrgFor cat = true := by
  rw [ScopePolicy.crossOrgFor, if_neg hcat, h, Option.getD_some]

theorem existing_of_one (limit1 : Limit1) {t : PolicyTable Uuid} {s : Scope Uuid}
    {old : ScopePolicy Uuid} (h : rowsOf s t = [old]) :
    existingGranular limit1 s t = old.granularConsent := by
  obtain ⟨row, hrow⟩ := limit1.exists_pick (h ▸ List.cons_ne_nil old [])
  have hmem := limit1.mem hrow
  rw [h, List.mem_singleton] at hmem
  rw [existingGranular, hrow, hmem, Option.map_some, Option.getD_some]

theorem eq_singleton_of_mem {α : Type} {xs : List α} {x : α} (hone : xs.length ≤ 1) (h : x ∈ xs) :
    xs = [x] := by
  obtain ⟨y, rfl⟩ := List.length_eq_one_iff.mp (Nat.le_antisymm hone (List.length_pos_of_mem h))
  rw [List.mem_singleton.mp h]

theorem existing_iff (limit1 : Limit1) {t : PolicyTable Uuid} {s : Scope Uuid}
    (hone : (rowsOf s t).length ≤ 1) (cat : String) :
    (existingGranular limit1 s t).get? cat = some true ↔
      ∃ old ∈ rowsOf s t, old.granularConsent.get? cat = some true := by
  constructor
  · intro h
    rw [existingGranular] at h
    cases hpick : limit1.pick (rowsOf s t) with
    | none =>
      rw [hpick] at h
      cases h
    | some old =>
      rw [hpick] at h
      exact ⟨old, limit1.mem hpick, h⟩
  · rintro ⟨old, hold, h⟩
    rw [existing_of_one limit1 (eq_singleton_of_mem hone hold), h]

variable {uuidOf} {limit1 : Limit1} {t : PolicyTable Uuid} {call : ConsentCall} {s : Scope Uuid}

theorem rowsOf_after_ne (h : call.target uuidOf ≠ some s) :
    rowsOf s (call.after uuidOf limit1 t) = rowsOf s t := by
  rcases after_cases uuidOf limit1 t call with ⟨-, hafter⟩ | ⟨row, htarget, hafter, -⟩
  · rw [hafter]
  · rw [hafter]
    exact rowsOf_upsert_ne fun heq => h (heq ▸ htarget)

/-- The one row that a call leaves of its scope. -/
theorem rowsOf_after (limit1 : Limit1) (hone : (rowsOf s t).length ≤ 1)
    (h : call.target uuidOf = some s)
    (hkey : s.Complete ∨ rowsOf s t = []) :
    ∃ row, rowsOf s (call.after uuidOf limit1 t) = [row] ∧
      row.crossOrgConsent = call.record.crossOrgConsent ∧
      row.granularConsent = mergeGranular (existingGranular limit1 s t) call.record.granular := by
  rcases after_cases uuidOf limit1 t call with
    ⟨hnone, -⟩ | ⟨row, htarget, hafter, hcross, hgranular⟩
  · rw [hnone] at h
    cases h
  · obtain rfl : row.scope = s := Option.some.inj (htarget.symm.trans h)
    obtain ⟨row', hrows, hcross', hgranular'⟩ := rowsOf_upsert hone hkey
    exact ⟨row', hafter ▸ hrows, hcross'.trans hcross, hgranular'.trans hgranular⟩

theorem permitted_one {row : ScopePolicy Uuid} (h : rowsOf s t = [row]) (cat : String) :
    Permitted t s cat ↔ row.crossOrgFor cat = true := by
  rw [Permitted, h]
  simp

theorem permitted_congr {t' : PolicyTable Uuid} (h : rowsOf s t' = rowsOf s t) (cat : String) :
    Permitted t' s cat ↔ Permitted t s cat := by
  rw [Permitted, Permitted, h]

/-- A revocation of everything permits only what was permitted one by one, under no known
category. -/
theorem permitted_revoked {hubId projectId : Option String}
    (hone : (rowsOf s t).length ≤ 1)
    (h : (ConsentCall.revoke hubId projectId none).target uuidOf = some s)
    (hkey : s.Complete ∨ rowsOf s t = []) (cat : String) :
    Permitted ((ConsentCall.revoke hubId projectId none).after uuidOf limit1 t) s cat ↔
      cat ≠ "" ∧ cat ∉ knownDataCategories ∧
        ∃ old ∈ rowsOf s t, old.granularConsent.get? cat = some true := by
  obtain ⟨row, hrows, hcross, hgranular⟩ := rowsOf_after limit1 hone h hkey
  have hrevoked : ∀ m ∈ knownDataCategories.map fun cat => (cat, false), m.2 = false := by decide
  have hget : row.granularConsent.get? cat =
      if cat ∈ knownDataCategories then some false
      else (existingGranular limit1 s t).get? cat := by
    rw [hgranular]
    exact get?_mergeGranular hrevoked (existingGranular limit1 s t) cat
  have hoff : row.crossOrgConsent = false := hcross
  rw [permitted_one hrows, ScopePolicy.crossOrgFor, hoff, hget, ← existing_iff limit1 hone]
  by_cases hcat : cat = ""
  · simp [hcat]
  · by_cases hknown : cat ∈ knownDataCategories
    · simp [hcat, hknown]
    · rw [if_neg hcat, if_neg hknown]
      cases (existingGranular limit1 s t).get? cat with
      | none => simp
      | some b => simp [hcat, hknown]

/-- A revocation of one category turns the flag for all categories on. -/
theorem permitted_revoked_category (limit1 : Limit1) {hubId projectId : Option String}
    {category : String} (hone : (rowsOf s t).length ≤ 1)
    (h : (ConsentCall.revoke hubId projectId (some category)).target uuidOf = some s)
    (hkey : s.Complete ∨ rowsOf s t = []) (cat : String) :
    Permitted ((ConsentCall.revoke hubId projectId (some category)).after uuidOf limit1 t) s
      cat ↔ cat = "" ∨ (cat ≠ category ∧ (existingGranular limit1 s t).get? cat ≠ some false) := by
  obtain ⟨row, hrows, hcross, hgranular⟩ := rowsOf_after limit1 hone h hkey
  have hrevoked : ∀ m ∈ [(category, false)], m.2 = false := by simp
  have hget : row.granularConsent.get? cat =
      if cat ∈ [category] then some false else (existingGranular limit1 s t).get? cat := by
    rw [hgranular]
    exact get?_mergeGranular hrevoked (existingGranular limit1 s t) cat
  have hon : row.crossOrgConsent = true := hcross
  rw [permitted_one hrows, ScopePolicy.crossOrgFor, hon, hget]
  by_cases hcat : cat = ""
  · simp [hcat]
  · by_cases heq : cat = category
    · simp [← heq, hcat]
    · rw [if_neg hcat, if_neg fun h => heq (List.mem_singleton.mp h)]
      cases (existingGranular limit1 s t).get? cat with
      | none => simp [heq]
      | some b => cases b <;> simp [hcat, heq]

/-! ## Histories -/

def ConsentCall.Revokes (call : ConsentCall) : Prop :=
  ∃ hub project cat, call = .revoke hub project cat

def ConsentCall.RevokesAll (uuidOf : String → Option Uuid) (call : ConsentCall) (s : Scope Uuid) :
    Prop :=
  (∃ hub project, call = .revoke hub project none) ∧ call.target uuidOf = some s

def ConsentCall.Grants (uuidOf : String → Option Uuid) (call : ConsentCall) (s : Scope Uuid) :
    Prop :=
  (∃ record, call = .grant record) ∧ call.target uuidOf = some s

/-- A revocation permits nothing new, a revocation of everything permits nothing until the
next grant, and a scope has one policy. -/
structure HistorySound (uuidOf : String → Option Uuid) (limit1 : Limit1)
    (history : List ConsentCall) : Prop where
  revoke_narrows : ∀ pre call, pre ++ [call] <+: history → call.Revokes → ∀ s cat,
    Permitted (policyTable uuidOf limit1 (pre ++ [call])) s cat →
      Permitted (policyTable uuidOf limit1 pre) s cat
  revoked : ∀ pre call mid s, pre ++ call :: mid <+: history → call.RevokesAll uuidOf s →
    (∀ c ∈ mid, ¬ c.Grants uuidOf s) → ∀ cat,
      ¬ Permitted (policyTable uuidOf limit1 (pre ++ call :: mid)) s cat
  one_row : ∀ pre, pre <+: history → OneRow (policyTable uuidOf limit1 pre)

/-- What a call must find for a scope that it writes to: the upsert has a full key or a new
scope before it; a revocation of everything finds no category granted by a name of its own,
and a revocation of one category finds the flag for all categories on. -/
def Clean (uuidOf : String → Option Uuid) (t : PolicyTable Uuid) (call : ConsentCall) : Prop :=
  ∀ s, call.target uuidOf = some s → (s.Complete ∨ rowsOf s t = []) ∧
    match call with
    | .grant _ => True
    | .revoke _ _ none => ∀ old ∈ rowsOf s t, ∀ cat,
        old.granularConsent.get? cat = some true → cat = "" ∨ cat ∈ knownDataCategories
    | .revoke _ _ (some _) => ∃ old ∈ rowsOf s t, old.crossOrgConsent = true

theorem policyTable_concat (uuidOf : String → Option Uuid) (limit1 : Limit1)
    (pre : List ConsentCall) (call : ConsentCall) :
    policyTable uuidOf limit1 (pre ++ [call]) =
      call.after uuidOf limit1 (policyTable uuidOf limit1 pre) := by
  rw [policyTable, List.foldl_append]
  rfl

theorem OneRow.after (hone : OneRow t) (hclean : Clean uuidOf t call) :
    OneRow (call.after uuidOf limit1 t) := by
  intro s
  by_cases htarget : call.target uuidOf = some s
  · obtain ⟨row, hrows, -⟩ := rowsOf_after limit1 (hone s) htarget
      (hclean s htarget).1
    rw [hrows]
    exact Nat.le_refl 1
  · rw [rowsOf_after_ne htarget]
    exact hone s

/-- A clean revocation permits nothing new. -/
theorem permitted_of_revoke (hone : OneRow t) (hclean : Clean uuidOf t call)
    (hrevoke : call.Revokes) {cat : String}
    (h : Permitted (call.after uuidOf limit1 t) s cat) : Permitted t s cat := by
  by_cases htarget : call.target uuidOf = some s
  · obtain ⟨hkey, hstate⟩ := hclean s htarget
    obtain ⟨hub, project, category, rfl⟩ := hrevoke
    cases category with
    | none =>
      rw [permitted_revoked (hone s) htarget hkey] at h
      obtain ⟨hcat, -, old, hold, hget⟩ := h
      exact ⟨old, hold, crossOrgFor_of_granular hcat hget⟩
    | some category =>
      obtain ⟨old, hold, hon⟩ := hstate
      refine ⟨old, hold, ?_⟩
      have hrows : rowsOf s t = [old] := eq_singleton_of_mem (hone s) hold
      rw [permitted_revoked_category limit1 (hone s) htarget hkey,
        existing_of_one limit1 hrows] at h
      rw [ScopePolicy.crossOrgFor, hon]
      by_cases hcat : cat = ""
      · rw [if_pos hcat]
      · rw [if_neg hcat]
        obtain ⟨-, hget⟩ := h.resolve_left hcat
        cases hold : old.granularConsent.get? cat with
        | none => rfl
        | some b =>
          cases b with
          | true => rfl
          | false => exact absurd hold hget
  · exact (permitted_congr (rowsOf_after_ne htarget) cat).mp h

/-- The property that one call keeps or breaks: it holds over a whole history exactly when
every call finds what it needs. -/
theorem historySound_iff (history : List ConsentCall) :
    HistorySound uuidOf limit1 history ↔
      ∀ pre call, pre ++ [call] <+: history →
        Clean uuidOf (policyTable uuidOf limit1 pre) call := by
  constructor
  · intro h pre call hpre s htarget
    have hone := h.one_row pre ((List.prefix_append pre [call]).trans hpre) s
    have hkey : s.Complete ∨ rowsOf s (policyTable uuidOf limit1 pre) = [] := by
      by_contra hno
      obtain ⟨hkey, hrows⟩ := not_or.mp hno
      have htwo := h.one_row (pre ++ [call]) hpre s
      rw [policyTable_concat] at htwo
      rcases after_cases uuidOf limit1 (policyTable uuidOf limit1 pre) call with
        ⟨hnone, -⟩ | ⟨row, hrow, hafter, -⟩
      · rw [hnone] at htarget
        cases htarget
      · obtain rfl : row.scope = s := Option.some.inj (hrow.symm.trans htarget)
        rw [hafter, rowsOf_upsert_incomplete hkey, List.length_append, List.length_singleton]
          at htwo
        have hpos := List.length_pos_iff.mpr hrows
        omega
    refine ⟨hkey, ?_⟩
    cases call with
    | grant record => trivial
    | revoke hub project category =>
      cases category with
      | none =>
        intro old hold cat hget
        by_contra hno
        obtain ⟨hcat, hknown⟩ := not_or.mp hno
        refine h.revoked pre _ [] s hpre ⟨⟨hub, project, rfl⟩, htarget⟩ (by simp) cat ?_
        rw [policyTable_concat]
        exact (permitted_revoked hone htarget hkey cat).mpr ⟨hcat, hknown, old, hold, hget⟩
      | some category =>
        have hafter : Permitted (policyTable uuidOf limit1
            (pre ++ [.revoke hub project (some category)])) s "" := by
          rw [policyTable_concat]
          exact (permitted_revoked_category limit1 hone htarget hkey "").mpr (Or.inl rfl)
        exact h.revoke_narrows pre _ hpre ⟨hub, project, some category, rfl⟩ s "" hafter
  · intro h
    have hone : ∀ pre, pre <+: history → OneRow (policyTable uuidOf limit1 pre) := by
      intro pre
      induction pre using List.reverseRecOn with
      | nil => exact fun _ s => Nat.zero_le 1
      | append_singleton pre call ih =>
        intro hpre
        rw [policyTable_concat]
        exact (ih ((List.prefix_append pre [call]).trans hpre)).after (h pre call hpre)
    have hnarrows : ∀ pre call, pre ++ [call] <+: history → call.Revokes → ∀ s cat,
        Permitted (policyTable uuidOf limit1 (pre ++ [call])) s cat →
          Permitted (policyTable uuidOf limit1 pre) s cat := by
      intro pre call hpre hrevoke s cat hpermitted
      rw [policyTable_concat] at hpermitted
      have hbefore := hone pre ((List.prefix_append pre [call]).trans hpre)
      exact permitted_of_revoke hbefore (h pre call hpre) hrevoke hpermitted
    refine ⟨hnarrows, ?_, hone⟩
    intro pre call mid s hpre hrevoke
    induction mid using List.reverseRecOn with
    | nil =>
      intro _ cat hpermitted
      obtain ⟨⟨hub, project, rfl⟩, htarget⟩ := hrevoke
      have hbefore := hone pre ((List.prefix_append pre [_]).trans hpre)
      obtain ⟨hkey, hstate⟩ := h pre _ hpre s htarget
      rw [policyTable_concat, permitted_revoked (hbefore s) htarget hkey] at hpermitted
      obtain ⟨hcat, hknown, old, hold, hget⟩ := hpermitted
      exact (hstate old hold cat hget).elim hcat hknown
    | append_singleton mid c ih =>
      intro hgrants cat hpermitted
      rw [← List.cons_append, ← List.append_assoc] at hpre hpermitted
      have hdark := ih ((List.prefix_append _ [c]).trans hpre)
        (fun d hd => hgrants d (List.mem_append_left [c] hd)) cat
      cases c with
      | revoke hub project category =>
        exact hdark (hnarrows _ _ hpre ⟨hub, project, category, rfl⟩ s cat hpermitted)
      | grant record =>
        have hother : (ConsentCall.grant record).target uuidOf ≠ some s := fun htarget =>
          hgrants _ (List.mem_append_right mid (List.mem_singleton_self _))
            ⟨⟨record, rfl⟩, htarget⟩
        rw [policyTable_concat] at hpermitted
        exact hdark ((permitted_congr (rowsOf_after_ne hother) cat).mp hpermitted)

end

/-- The first row there is. -/
def firstRow : Limit1 where
  pick := List.head?
  mem := List.mem_of_head?
  exists_pick h := ⟨_, List.head?_eq_some_head h⟩

/-- A project that never consented revokes one category, and permits the others. -/
theorem revoked_category_permits_others :
    ¬ HistorySound (some : String → Option String) firstRow
      [.revoke (some "hub") (some "project") (some "calibration_outcomes")] := by
  intro h
  have htarget : (ConsentCall.revoke (some "hub") (some "project")
      (some "calibration_outcomes")).target (some : String → Option String) =
      some ⟨some "hub", some "project"⟩ := by
    decide
  have hafter := (permitted_revoked_category firstRow (t := []) (Nat.zero_le 1) htarget
    (Or.inr rfl) "role_success_rates").mpr (Or.inr ⟨by decide, by decide⟩)
  obtain ⟨row, hrow, -⟩ := h.revoke_narrows [] _ List.prefix_rfl ⟨_, _, _, rfl⟩ _ _ hafter
  cases hrow

end SpineFormal.Learning
