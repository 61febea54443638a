import SpineFormal.Base.BestOf
import SpineFormal.Migration.ImportState
import SpineFormal.Py.Value
import SpineFormal.Validation.CrossLlm

/-!
# Merging findings

`workflows/finding_merge.py` keeps one finding dictionary for each fingerprint. A finding
without one is put under a text drawn from `uuid4`; the draws are a parameter.
-/

namespace SpineFormal.Verify

open Json Py Migration Validation
set_option autoImplicit false

/-- `float(v or 0)`. It is `none` where Python raises or gives `nan`, and for a text. -/
def floatOrZero (v : Value) : Option Py.Num :=
  if truthy v then
    match v with
    | .bool _ => floatNum (PyFloat.ofDecimal false 1 0)
    | .int n =>
      if floatLimit ≤ |(n : ℚ)| then none else floatNum (PyFloat.ofDecimal (n < 0) n.natAbs 0)
    | .float x => floatNum x
    | _ => none
  else some (Py.Num.ofRat 0)

def layer3Order : List (String × Nat) :=
  [("verified", 4), ("skipped", 3), ("unverified", 2), ("not_applicable", 1)]

def layer3Rank (val : String) : Nat :=
  (layer3Order.lookup (String.ofList (val.toList.map lowerAscii))).getD 0

/-- `f.get(key)`. -/
def getItem (items : Members) (key : String) : Value := (lookup items key).getD .null

/-- A finding dictionary: its fingerprint is a text where it has one, and its confidence is a
number where it has one. -/
structure FindingDict where
  items : Members
  fingerprint_text : getItem items "finding_fingerprint" = .null ∨
    ∃ s, getItem items "finding_fingerprint" = .str s
  confidence_number : (floatOrZero (getItem items "confidence")).isSome

namespace FindingDict

/-- `none` where `f.get("finding_fingerprint")` is falsy. -/
def fingerprint (f : FindingDict) : Option String :=
  match getItem f.items "finding_fingerprint" with
  | .str s => if s = "" then none else some s
  | _ => none

def confirmed (f : FindingDict) : Bool := truthy (getItem f.items "deterministic_tool_confirmed")

def confidence (f : FindingDict) : Py.Num :=
  (floatOrZero (getItem f.items "confidence")).get f.confidence_number

/-- `_layer3_rank(str(f.get("layer3_execution")))`: no other value prints as one of the words. -/
def layer3 (f : FindingDict) : Nat :=
  match getItem f.items "layer3_execution" with
  | .str s => layer3Rank s
  | _ => 0

def replaces (f existing : FindingDict) : Bool :=
  if f.confirmed && !existing.confirmed then true
  else if existing.confirmed && !f.confirmed then false
  else if existing.confidence < f.confidence then true
  else if f.confidence < existing.confidence then false
  else existing.layer3 < f.layer3

end FindingDict

/-- The dictionary `seen`, and how often `uuid4` was called. -/
structure Seen where
  entries : List (String × FindingDict)
  drawn : Nat

def replacesEntry (new old : String × FindingDict) : Bool := new.2.replaces old.2

def dedupeStep (uuid : Nat → String) (s : Seen) (f : FindingDict) : Seen :=
  match f.fingerprint with
  | some fp => ⟨keepBetter Prod.fst replacesEntry (fp, f) s.entries, s.drawn⟩
  | none => ⟨keepBetter Prod.fst replacesEntry (uuid s.drawn, f) s.entries, s.drawn + 1⟩

def dedupeFindingsDicts (uuid : Nat → String) (findings : List FindingDict) : List FindingDict :=
  (findings.foldl (dedupeStep uuid) ⟨[], 0⟩).entries.map Prod.snd

/-- Of the first `n` draws no two are equal, and none is a fingerprint of the list. -/
structure Fresh (uuid : Nat → String) (n : Nat) (findings : List FindingDict) : Prop where
  injective : ∀ i < n, ∀ j < n, uuid i = uuid j → i = j
  apart : ∀ f ∈ findings, ∀ i < n, f.fingerprint ≠ some (uuid i)

/-! ## The rank -/

namespace FindingDict

def rank (f : FindingDict) : Bool ×ₗ Py.Num ×ₗ Nat :=
  toLex (f.confirmed, toLex (f.confidence, f.layer3))

/-- The chain of comparisons is the lexicographic one. -/
theorem replaces_iff (f existing : FindingDict) :
    f.replaces existing = true ↔ existing.rank < f.rank := by
  have hlex : existing.rank < f.rank ↔ existing.confirmed < f.confirmed ∨
      existing.confirmed = f.confirmed ∧ (existing.confidence < f.confidence ∨
        existing.confidence = f.confidence ∧ existing.layer3 < f.layer3) := by
    rw [rank, rank, Prod.Lex.toLex_lt_toLex]
    simp only [Prod.Lex.toLex_lt_toLex]
  rw [hlex, replaces]
  rcases lt_trichotomy existing.confidence f.confidence with h | h | h
  · cases f.confirmed <;> cases existing.confirmed <;> simp [h]
  · cases f.confirmed <;> cases existing.confirmed <;> simp [h]
  · cases f.confirmed <;> cases existing.confirmed <;> simp [h, h.not_gt, h.ne']

end FindingDict

/-! ## What is kept -/

/-- The entries the loop makes, one for each finding. -/
def labels (uuid : Nat → String) : Nat → List FindingDict → List (String × FindingDict)
  | _, [] => []
  | drawn, f :: fs =>
    match f.fingerprint with
    | some fp => (fp, f) :: labels uuid drawn fs
    | none => (uuid drawn, f) :: labels uuid (drawn + 1) fs

theorem foldl_dedupeStep (uuid : Nat → String) (fs : List FindingDict) (s : Seen) :
    (fs.foldl (dedupeStep uuid) s).entries = (labels uuid s.drawn fs).foldl
      (fun seen x => keepBetter Prod.fst replacesEntry x seen) s.entries := by
  induction fs generalizing s with
  | nil => rfl
  | cons f fs ih =>
    rw [List.foldl_cons, ih, labels, dedupeStep]
    cases f.fingerprint with
    | none => rfl
    | some fp => rfl

/-- What the loop keeps when `drawn` texts are used up. -/
def keptFrom (uuid : Nat → String) (drawn : Nat) (fs : List FindingDict) : List FindingDict :=
  (bestOf Prod.fst replacesEntry (labels uuid drawn fs)).map Prod.snd

theorem dedupe_eq_keptFrom (uuid : Nat → String) (fs : List FindingDict) :
    dedupeFindingsDicts uuid fs = keptFrom uuid 0 fs := by
  rw [dedupeFindingsDicts, foldl_dedupeStep]
  rfl

/-- The findings with a fingerprint, in order. -/
def group (fs : List FindingDict) (fp : String) : List FindingDict :=
  fs.filter fun f => f.fingerprint = some fp

/-- The findings with another fingerprint or none. -/
def others (fs : List FindingDict) (fp : String) : List FindingDict :=
  fs.filter fun f => f.fingerprint ≠ some fp

theorem length_others_le (fs : List FindingDict) (fp : String) :
    (others fs fp).length ≤ fs.length :=
  List.length_filter_le ..

theorem group_others {fp fp' : String} (h : fp' ≠ fp) (fs : List FindingDict) :
    group (others fs fp) fp' = group fs fp' := by
  rw [group, others, List.filter_filter]
  apply List.filter_congr
  intro g _
  by_cases hg : g.fingerprint = some fp'
  · simp [hg, h]
  · simp [hg]

/-- Induction over a list: a finding without a fingerprint, or one with all that share it. -/
theorem fingerprint_induction {P : List FindingDict → Prop} (nil : P [])
    (none : ∀ f fs, f.fingerprint = none → P fs → P (f :: fs))
    (some : ∀ f fs fp, f.fingerprint = some fp → P (others fs fp) → P (f :: fs))
    (fs : List FindingDict) : P fs := by
  induction h : fs.length using Nat.strongRecOn generalizing fs with
  | _ n ih =>
    cases fs with
    | nil => exact nil
    | cons f fs =>
      have hlt : fs.length < n := h ▸ Nat.lt_succ_self fs.length
      cases hfp : f.fingerprint with
      | none => exact none f fs hfp (ih _ hlt fs rfl)
      | some fp =>
        exact some f fs fp hfp (ih _ ((length_others_le fs fp).trans_lt hlt) _ rfl)

section Fresh
variable {uuid : Nat → String} {n : Nat} {fs : List FindingDict}

theorem Fresh.sublist {fs' : List FindingDict} (h : Fresh uuid n fs) (hsub : fs'.Sublist fs) :
    Fresh uuid n fs' :=
  ⟨h.injective, fun f hf => h.apart f (hsub.subset hf)⟩

theorem filter_labels_eq {k : String} (hk : ∀ i < n, uuid i ≠ k) {drawn : Nat}
    (hn : drawn + fs.length ≤ n) :
    (labels uuid drawn fs).filter (fun x => x.1 = k) = (group fs k).map fun g => (k, g) := by
  induction fs generalizing drawn with
  | nil => rfl
  | cons f fs ih =>
    rw [List.length_cons] at hn
    rw [labels, group]
    cases hfp : f.fingerprint with
    | none =>
      rw [List.filter_cons_of_neg (by simp [hk drawn (by omega)]),
        List.filter_cons_of_neg (by simp [hfp]), ih (by omega), group]
    | some fp =>
      by_cases h : fp = k
      · rw [List.filter_cons_of_pos (by simp [h]), List.filter_cons_of_pos (by simp [hfp, h]),
          List.map_cons, ih (by omega), group, h]
      · rw [List.filter_cons_of_neg (by simp [h]), List.filter_cons_of_neg (by simp [hfp, h]),
          ih (by omega), group]

theorem filter_labels_ne {k : String} (hk : ∀ i < n, uuid i ≠ k) {drawn : Nat}
    (hn : drawn + fs.length ≤ n) :
    (labels uuid drawn fs).filter (fun x => x.1 ≠ k) = labels uuid drawn (others fs k) := by
  induction fs generalizing drawn with
  | nil => rfl
  | cons f fs ih =>
    rw [List.length_cons] at hn
    rw [labels, others]
    cases hfp : f.fingerprint with
    | none =>
      rw [List.filter_cons_of_pos (by simp [hk drawn (by omega)]),
        List.filter_cons_of_pos (by simp [hfp]), ih (by omega), labels, hfp, others]
    | some fp =>
      by_cases h : fp = k
      · rw [List.filter_cons_of_neg (by simp [h]), List.filter_cons_of_neg (by simp [hfp, h]),
          ih (by omega), others]
      · rw [List.filter_cons_of_pos (by simp [h]), List.filter_cons_of_pos (by simp [hfp, h]),
          ih (by omega), labels, hfp, others]

/-- A text drawn earlier is no key any more. -/
theorem draw_ne_label (hf : Fresh uuid n fs) {drawn i : Nat} (hi : i < drawn)
    (hn : drawn + fs.length ≤ n) : ∀ x ∈ labels uuid drawn fs, x.1 ≠ uuid i := by
  induction fs generalizing drawn with
  | nil => simp [labels]
  | cons f fs ih =>
    rw [List.length_cons] at hn
    have hrest := hf.sublist (List.sublist_cons_self f fs)
    rw [labels]
    cases hfp : f.fingerprint with
    | none =>
      refine List.forall_mem_cons.mpr ⟨?_, ih hrest (by omega) (by omega)⟩
      intro h
      have := hf.injective drawn (by omega) i (by omega) h
      omega
    | some fp =>
      refine List.forall_mem_cons.mpr ⟨?_, ih hrest hi (by omega)⟩
      rintro rfl
      exact hf.apart f List.mem_cons_self i (by omega) hfp

theorem champion_label (k : String) (f : FindingDict) (gs : List FindingDict) :
    champion replacesEntry (k, f) (gs.map fun g => (k, g)) =
      (k, champion FindingDict.replaces f gs) := by
  induction gs generalizing f with
  | nil => rfl
  | cons g gs ih =>
    have hstep : (if replacesEntry (k, g) (k, f) then (k, g) else (k, f)) =
        (k, if g.replaces f then g else f) := by
      rw [replacesEntry]
      split <;> rfl
    rw [List.map_cons, champion_cons, champion_cons, hstep, ih]

theorem keptFrom_none {f : FindingDict} (hf : Fresh uuid n (f :: fs)) {drawn : Nat}
    (hn : drawn + (f :: fs).length ≤ n) (hfp : f.fingerprint = none) :
    keptFrom uuid drawn (f :: fs) = f :: keptFrom uuid (drawn + 1) fs := by
  rw [List.length_cons] at hn
  have hne := draw_ne_label (hf.sublist (List.sublist_cons_self f fs)) (Nat.lt_succ_self drawn)
    (by omega)
  have hnone : (labels uuid (drawn + 1) fs).filter (fun x => x.1 = uuid drawn) = [] :=
    List.filter_eq_nil_iff.mpr fun x hx => by simpa using hne x hx
  have hall : (labels uuid (drawn + 1) fs).filter (fun x => x.1 ≠ uuid drawn) =
      labels uuid (drawn + 1) fs :=
    List.filter_eq_self.mpr fun x hx => by simpa using hne x hx
  rw [keptFrom, labels, hfp]
  simp only [bestOf_cons]
  rw [hnone, hall]
  rfl

theorem keptFrom_some {f : FindingDict} {fp : String} (hf : Fresh uuid n (f :: fs)) {drawn : Nat}
    (hn : drawn + (f :: fs).length ≤ n) (hfp : f.fingerprint = some fp) :
    keptFrom uuid drawn (f :: fs) =
      champion FindingDict.replaces f (group fs fp) :: keptFrom uuid drawn (others fs fp) := by
  rw [List.length_cons] at hn
  have hk : ∀ i < n, uuid i ≠ fp := fun i hi h =>
    hf.apart f List.mem_cons_self i hi (hfp.trans (congrArg some h.symm))
  rw [keptFrom, labels, hfp]
  simp only [bestOf_cons]
  rw [filter_labels_eq hk (by omega), filter_labels_ne hk (by omega), champion_label]
  rfl

theorem mem_of_mem_keptFrom {drawn : Nat} {f : FindingDict} (h : f ∈ keptFrom uuid drawn fs) :
    f ∈ fs := by
  obtain ⟨x, hx, rfl⟩ := List.mem_map.mp h
  have hlabel := mem_of_mem_bestOf hx
  clear h hx
  induction fs generalizing drawn with
  | nil => simp [labels] at hlabel
  | cons g fs ih =>
    rw [labels] at hlabel
    split at hlabel
    · rcases List.mem_cons.mp hlabel with rfl | hlabel
      · exact List.mem_cons_self
      · exact List.mem_cons_of_mem g (ih hlabel)
    · rcases List.mem_cons.mp hlabel with rfl | hlabel
      · exact List.mem_cons_self
      · exact List.mem_cons_of_mem g (ih hlabel)

theorem mem_group {fp : String} {g : FindingDict} :
    g ∈ group fs fp ↔ g ∈ fs ∧ g.fingerprint = some fp := by
  rw [group, List.mem_filter, decide_eq_true_iff]

theorem champion_fingerprint {f : FindingDict} {fp : String} (hfp : f.fingerprint = some fp) :
    (champion FindingDict.replaces f (group fs fp)).fingerprint = some fp := by
  rcases List.mem_cons.mp (champion_mem f (group fs fp)) with h | h
  · rw [h, hfp]
  · exact (mem_group.mp h).2

end Fresh

/-- The findings that come first with their fingerprint, and those without one. -/
def heads : List FindingDict → List FindingDict
  | [] => []
  | f :: fs =>
    f :: (heads fs).filter fun g => g.fingerprint = none ∨ g.fingerprint ≠ f.fingerprint

theorem heads_others (fs : List FindingDict) (fp : String) :
    heads (others fs fp) = (heads fs).filter fun g => g.fingerprint ≠ some fp := by
  induction fs with
  | nil => rfl
  | cons f fs ih =>
    by_cases h : f.fingerprint = some fp
    · rw [others, List.filter_cons_of_neg (by simp [h]), ← others, ih, heads,
        List.filter_cons_of_neg (by simp [h]), List.filter_filter]
      apply List.filter_congr
      intro g _
      by_cases hg : g.fingerprint = some fp
      · simp [hg]
      · simp [hg, h]
    · rw [others, List.filter_cons_of_pos (by simp [h]), ← others, heads, ih, heads,
        List.filter_cons_of_pos (by simp [h]), List.filter_filter, List.filter_filter]
      refine congrArg (f :: ·) (List.filter_congr fun g _ => ?_)
      exact Bool.and_comm ..

theorem heads_cons_none {f : FindingDict} (hfp : f.fingerprint = none) (fs : List FindingDict) :
    heads (f :: fs) = f :: heads fs := by
  rw [heads, hfp, List.filter_eq_self.mpr fun g _ => by simp [em]]

theorem heads_cons_some {f : FindingDict} {fp : String} (hfp : f.fingerprint = some fp)
    (fs : List FindingDict) : heads (f :: fs) = f :: heads (others fs fp) := by
  rw [heads, heads_others, hfp]
  refine congrArg (f :: ·) (List.filter_congr fun g _ => ?_)
  by_cases hg : g.fingerprint = some fp
  · simp [hg]
  · simp [hg]

/-- The earliest of the highest ranked. -/
def Earliest (fs : List FindingDict) (f : FindingDict) : Prop :=
  ∃ before after, fs = before ++ f :: after ∧
    (∀ g ∈ before, g.rank < f.rank) ∧ ∀ g ∈ after, g.rank ≤ f.rank

/-- What stands in the result for a finding of `heads`. -/
def StandsFor (fs : List FindingDict) (h f : FindingDict) : Prop :=
  match h.fingerprint with
  | none => f = h
  | some fp => Earliest (group fs fp) f

theorem standsFor_none {fs : List FindingDict} {h f : FindingDict} (hfp : h.fingerprint = none) :
    StandsFor fs h f ↔ f = h := by
  rw [StandsFor, hfp]

theorem standsFor_some {fs : List FindingDict} {h f : FindingDict} {fp : String}
    (hfp : h.fingerprint = some fp) : StandsFor fs h f ↔ Earliest (group fs fp) f := by
  rw [StandsFor, hfp]

theorem keptFrom_standsFor {uuid : Nat → String} {n : Nat} {all fs : List FindingDict}
    (hf : Fresh uuid n fs) {drawn : Nat} (hn : drawn + fs.length ≤ n)
    (hall : ∀ g ∈ fs, ∀ fp, g.fingerprint = some fp → group all fp = group fs fp) :
    List.Forall₂ (StandsFor all) (heads fs) (keptFrom uuid drawn fs) := by
  induction fs using fingerprint_induction generalizing drawn with
  | nil => exact .nil
  | none f fs hfp ih =>
    rw [heads_cons_none hfp, keptFrom_none hf hn hfp]
    rw [List.length_cons] at hn
    refine .cons ?_ (ih (hf.sublist (List.sublist_cons_self f fs)) (by omega) ?_)
    · exact (standsFor_none hfp).mpr rfl
    · intro g hg fp hgfp
      rw [hall g (List.mem_cons_of_mem f hg) fp hgfp, group,
        List.filter_cons_of_neg (by simp [hfp]), group]
  | some f fs fp hfp ih =>
    rw [heads_cons_some hfp, keptFrom_some hf hn hfp]
    rw [List.length_cons] at hn
    have hsub : (others fs fp).Sublist (f :: fs) := List.filter_sublist.cons f
    have hlen := length_others_le fs fp
    refine .cons ?_ (ih (hf.sublist hsub) (by omega) ?_)
    · have hgroup : group all fp = f :: group fs fp := by
        rw [hall f List.mem_cons_self fp hfp, group, List.filter_cons_of_pos (by simp [hfp]), group]
      rw [standsFor_some hfp, hgroup]
      exact champion_earliest (fun x y => x.replaces_iff y) f (group fs fp)
    · intro g hg fp' hgfp
      have hne : fp' ≠ fp := by
        rintro rfl
        simpa [hgfp] using List.of_mem_filter hg
      rw [hall g (hsub.subset hg) fp' hgfp, group_others hne, group,
        List.filter_cons_of_neg (by simpa [hfp] using hne.symm), group]

theorem nodup_keptFrom {uuid : Nat → String} {n : Nat} {fs : List FindingDict}
    (hf : Fresh uuid n fs) {drawn : Nat} (hn : drawn + fs.length ≤ n) :
    ((keptFrom uuid drawn fs).filterMap FindingDict.fingerprint).Nodup := by
  induction fs using fingerprint_induction generalizing drawn with
  | nil => exact List.nodup_nil
  | none f fs hfp ih =>
    rw [keptFrom_none hf hn hfp, List.filterMap_cons_none hfp]
    rw [List.length_cons] at hn
    exact ih (hf.sublist (List.sublist_cons_self f fs)) (by omega)
  | some f fs fp hfp ih =>
    rw [keptFrom_some hf hn hfp, List.filterMap_cons_some (champion_fingerprint hfp)]
    rw [List.length_cons] at hn
    have hlen := length_others_le fs fp
    refine List.nodup_cons.mpr ⟨?_, ih (hf.sublist (List.filter_sublist.cons f)) (by omega)⟩
    intro hmem
    obtain ⟨g, hg, hgfp⟩ := List.mem_filterMap.mp hmem
    simpa [hgfp] using List.of_mem_filter (mem_of_mem_keptFrom hg)

/-- Findings that share no fingerprint are all kept. -/
theorem keptFrom_of_nodup {uuid : Nat → String} {n : Nat} {fs : List FindingDict}
    (hf : Fresh uuid n fs) {drawn : Nat} (hn : drawn + fs.length ≤ n)
    (hnodup : (fs.filterMap FindingDict.fingerprint).Nodup) : keptFrom uuid drawn fs = fs := by
  induction fs generalizing drawn with
  | nil => rfl
  | cons f fs ih =>
    have hrest := hf.sublist (List.sublist_cons_self f fs)
    cases hfp : f.fingerprint with
    | none =>
      rw [List.filterMap_cons_none hfp] at hnodup
      rw [keptFrom_none hf hn hfp]
      rw [List.length_cons] at hn
      rw [ih hrest (by omega) hnodup]
    | some fp =>
      rw [List.filterMap_cons_some hfp, List.nodup_cons] at hnodup
      have hne : ∀ g ∈ fs, g.fingerprint ≠ some fp := fun g hg hgfp =>
        hnodup.1 (List.mem_filterMap.mpr ⟨g, hg, hgfp⟩)
      have hgroup : group fs fp = [] :=
        List.filter_eq_nil_iff.mpr fun g hg => by simpa using hne g hg
      have hothers : others fs fp = fs :=
        List.filter_eq_self.mpr fun g hg => by simpa using hne g hg
      rw [keptFrom_some hf hn hfp, hgroup, hothers]
      rw [List.length_cons] at hn
      rw [ih hrest (by omega) hnodup.2]
      rfl

theorem length_keptFrom_le {uuid : Nat → String} {n : Nat} {fs : List FindingDict}
    (hf : Fresh uuid n fs) {drawn : Nat} (hn : drawn + fs.length ≤ n) :
    (keptFrom uuid drawn fs).length ≤ fs.length := by
  induction fs using fingerprint_induction generalizing drawn with
  | nil => exact Nat.le_refl 0
  | none f fs hfp ih =>
    rw [keptFrom_none hf hn hfp]
    rw [List.length_cons] at hn
    exact Nat.succ_le_succ (ih (hf.sublist (List.sublist_cons_self f fs)) (by omega))
  | some f fs fp hfp ih =>
    rw [keptFrom_some hf hn hfp]
    rw [List.length_cons] at hn
    have hlen := length_others_le fs fp
    exact Nat.succ_le_succ ((ih (hf.sublist (List.filter_sublist.cons f)) (by omega)).trans hlen)

theorem dedupeFindingsDicts_spec {uuid uuid' : Nat → String} {fs : List FindingDict}
    (hf : Fresh uuid fs.length fs) (hf' : Fresh uuid' fs.length fs) :
    List.Forall₂ (StandsFor fs) (heads fs) (dedupeFindingsDicts uuid fs) ∧
      ((dedupeFindingsDicts uuid fs).filterMap FindingDict.fingerprint).Nodup ∧
        dedupeFindingsDicts uuid' (dedupeFindingsDicts uuid fs) = dedupeFindingsDicts uuid fs := by
  have hn : 0 + fs.length ≤ fs.length := by omega
  have hnodup := nodup_keptFrom hf hn
  simp only [dedupe_eq_keptFrom]
  refine ⟨keptFrom_standsFor hf hn fun _ _ _ _ => rfl, hnodup, ?_⟩
  have hlen := length_keptFrom_le hf hn
  exact keptFrom_of_nodup (n := fs.length)
    ⟨hf'.injective, fun f hmem => hf'.apart f (mem_of_mem_keptFrom hmem)⟩ (by omega) hnodup

/-! ## Members of the result -/

theorem mem_heads_of_none {fs : List FindingDict} {f : FindingDict} (hf : f ∈ fs)
    (hfp : f.fingerprint = none) : f ∈ heads fs := by
  induction fs with
  | nil => exact hf
  | cons g fs ih =>
    rcases List.mem_cons.mp hf with rfl | hf
    · exact List.mem_cons_self
    · exact List.mem_cons_of_mem g (List.mem_filter.mpr ⟨ih hf, by simp [hfp]⟩)

theorem exists_head {fs : List FindingDict} {f : FindingDict} {fp : String} (hf : f ∈ fs)
    (hfp : f.fingerprint = some fp) : ∃ h ∈ heads fs, h.fingerprint = some fp := by
  induction fs with
  | nil => cases hf
  | cons g fs ih =>
    by_cases hg : g.fingerprint = some fp
    · exact ⟨g, List.mem_cons_self, hg⟩
    · rcases List.mem_cons.mp hf with rfl | hf
      · exact absurd hfp hg
      · obtain ⟨h, hh, hhfp⟩ := ih hf
        have hne : some fp ≠ g.fingerprint := fun heq => hg heq.symm
        exact ⟨h, List.mem_cons_of_mem g (List.mem_filter.mpr ⟨hh, by simp [hhfp, hne]⟩), hhfp⟩

theorem Earliest.mem {fs : List FindingDict} {f : FindingDict} (h : Earliest fs f) : f ∈ fs := by
  obtain ⟨before, after, rfl, -, -⟩ := h
  exact List.mem_append_right _ List.mem_cons_self

theorem Earliest.rank_le {fs : List FindingDict} {f g : FindingDict} (h : Earliest fs f)
    (hg : g ∈ fs) : g.rank ≤ f.rank := by
  obtain ⟨before, after, rfl, hbefore, hafter⟩ := h
  rcases List.mem_append.mp hg with hg | hg
  · exact (hbefore g hg).le
  · rcases List.mem_cons.mp hg with rfl | hg
    · exact le_refl g.rank
    · exact hafter g hg

theorem mem_left_of_forall₂ {α β : Type} {R : α → β → Prop} {xs : List α} {ys : List β}
    (h : List.Forall₂ R xs ys) {x : α} (hx : x ∈ xs) : ∃ y ∈ ys, R x y := by
  induction h with
  | nil => cases hx
  | @cons a b xs ys hab _ ih =>
    rcases List.mem_cons.mp hx with rfl | hx
    · exact ⟨b, List.mem_cons_self, hab⟩
    · obtain ⟨y, hy, hxy⟩ := ih hx
      exact ⟨y, List.mem_cons_of_mem b hy, hxy⟩

theorem keptFrom_standsFor_self {uuid : Nat → String} {fs : List FindingDict}
    (hf : Fresh uuid fs.length fs) :
    List.Forall₂ (StandsFor fs) (heads fs) (keptFrom uuid 0 fs) :=
  keptFrom_standsFor hf (Nat.zero_add fs.length).le fun _ _ _ _ => rfl

/-- What the result holds: the findings without a fingerprint, and one champion for each other. -/
theorem mem_dedupe {uuid : Nat → String} {fs : List FindingDict} (hf : Fresh uuid fs.length fs)
    {d : FindingDict} (hd : d ∈ dedupeFindingsDicts uuid fs) :
    d ∈ fs ∧ ∀ fp, d.fingerprint = some fp → Earliest (group fs fp) d := by
  rw [dedupe_eq_keptFrom] at hd
  have hstands := keptFrom_standsFor_self hf
  obtain ⟨h, hh, hstand⟩ := mem_left_of_forall₂ hstands.flip hd
  refine ⟨mem_of_mem_keptFrom hd, fun fp hfp => ?_⟩
  cases hhfp : h.fingerprint with
  | none =>
    rw [(standsFor_none hhfp).mp hstand, hhfp] at hfp
    cases hfp
  | some fp' =>
    have hearliest := (standsFor_some hhfp).mp hstand
    have hsame : fp' = fp := Option.some.inj ((mem_group.mp hearliest.mem).2.symm.trans hfp)
    rwa [hsame] at hearliest

theorem mem_dedupe_of_none {uuid : Nat → String} {fs : List FindingDict}
    (hf : Fresh uuid fs.length fs) {f : FindingDict} (hmem : f ∈ fs)
    (hfp : f.fingerprint = none) :
    f ∈ dedupeFindingsDicts uuid fs := by
  rw [dedupe_eq_keptFrom]
  have hstands := keptFrom_standsFor_self hf
  obtain ⟨d, hd, hstand⟩ := mem_left_of_forall₂ hstands (mem_heads_of_none hmem hfp)
  exact (standsFor_none hfp).mp hstand ▸ hd

theorem exists_mem_dedupe {uuid : Nat → String} {fs : List FindingDict}
    (hf : Fresh uuid fs.length fs) {f : FindingDict} {fp : String} (hmem : f ∈ fs)
    (hfp : f.fingerprint = some fp) :
    ∃ d ∈ dedupeFindingsDicts uuid fs, Earliest (group fs fp) d := by
  rw [dedupe_eq_keptFrom]
  have hstands := keptFrom_standsFor_self hf
  obtain ⟨h, hh, hhfp⟩ := exists_head hmem hfp
  obtain ⟨d, hd, hstand⟩ := mem_left_of_forall₂ hstands hh
  exact ⟨d, hd, (standsFor_some hhfp).mp hstand⟩

/-- A finding of one fingerprint that Layer 3 left with an outcome. -/
def queryDict (layer3 : String) : FindingDict where
  items := [("finding_fingerprint", .str "9f2c"), ("deterministic_tool_confirmed", .bool false),
    ("confidence", .float (.finite false 7 (-1) (by decide))), ("layer3_execution", .str layer3)]
  fingerprint_text := .inr ⟨"9f2c", rfl⟩
  confidence_number := rfl

/-- A finding that an import left without a fingerprint. -/
def importedDict : FindingDict where
  items := [("confidence", .null)]
  fingerprint_text := .inl rfl
  confidence_number := by decide

def uuids (i : Nat) : String :=
  if i = 0 then "3e0d7c5a-52e0-4c4b-9d0e-6f1f6f0f3c11"
  else if i = 1 then "b1a6a0c8-0f5d-4b6e-8a53-2d9d3a9be702"
  else "58f0c1f2-7a37-4f0e-b0a4-91c5d2f7e6ad"

def threeDicts : List FindingDict := [queryDict "unverified", importedDict, queryDict "verified"]

theorem threeDicts_fresh : Fresh uuids threeDicts.length threeDicts where
  injective := by decide
  apart := by
    intro f hf
    rcases List.mem_cons.mp hf with rfl | hf
    · decide
    · rcases List.mem_cons.mp hf with rfl | hf
      · decide
      · rcases List.mem_singleton.mp hf with rfl
        decide

theorem dedupe_threeDicts :
    List.Forall₂ (StandsFor threeDicts) (heads threeDicts)
        (dedupeFindingsDicts uuids threeDicts) ∧
      ((dedupeFindingsDicts uuids threeDicts).filterMap FindingDict.fingerprint).Nodup ∧
        dedupeFindingsDicts uuids (dedupeFindingsDicts uuids threeDicts) =
          dedupeFindingsDicts uuids threeDicts :=
  dedupeFindingsDicts_spec threeDicts_fresh threeDicts_fresh

example : (dedupeFindingsDicts uuids threeDicts).map FindingDict.layer3 = [4, 0] := by
  decide +kernel

end SpineFormal.Verify
