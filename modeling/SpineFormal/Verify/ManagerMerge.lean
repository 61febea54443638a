import SpineFormal.Verify.FindingMerge

/-!
# Merging in the manager

`_merge_findings` of `agents/manager.py` merges the batches of the agents before
`dedupe_findings_dicts` sees what the audit collects. It compares two findings by its own
rule; here the two selections are compared.
-/

namespace SpineFormal.Verify

open Json Py Migration
set_option autoImplicit false

/-- A `FindingOutput` as far as a merge reads it, with its other fields. -/
structure ReportedFinding where
  findingFingerprint : String
  deterministicToolConfirmed : Bool
  confidence : PyFloat
  /-- `ge=0.0, le=1.0`. -/
  inUnit : ∃ q : ℚ, floatNum confidence = some (Py.Num.ofRat q) ∧ 0 ≤ q ∧ q ≤ 1
  layer3Execution : Option String
  other : Members

namespace ReportedFinding

theorem number (f : ReportedFinding) : (floatNum f.confidence).isSome := by
  obtain ⟨q, hq, -⟩ := f.inUnit
  rw [hq, Option.isSome_some]

def score (f : ReportedFinding) : Py.Num := (floatNum f.confidence).get f.number

theorem floatOrZero_float (x : PyFloat) : floatOrZero (.float x) = floatNum x := by
  cases x with
  | nan => rfl
  | inf neg => rfl
  | zero neg => rfl
  | finite neg c e h => rfl

/-- `model_dump`. -/
def dump (f : ReportedFinding) : FindingDict where
  items := [("finding_fingerprint", .str f.findingFingerprint),
    ("deterministic_tool_confirmed", .bool f.deterministicToolConfirmed),
    ("confidence", .float f.confidence),
    ("layer3_execution", nullable (f.layer3Execution.map .str))] ++ f.other
  fingerprint_text := .inr ⟨f.findingFingerprint, rfl⟩
  confidence_number := by
    have hget : floatOrZero (.float f.confidence) = floatNum f.confidence := floatOrZero_float _
    exact hget.symm ▸ f.number

/-- The rank `dedupe_findings_dicts` gives it. -/
def rank (f : ReportedFinding) : Bool ×ₗ Py.Num ×ₗ Nat := f.dump.rank

/-- `finding` takes the place of `existing`. -/
def outranks (finding existing : ReportedFinding) : Bool :=
  (finding.deterministicToolConfirmed && !existing.deterministicToolConfirmed) ||
    decide (existing.score < finding.score)

end ReportedFinding

def mergeFindings (batches : List (List ReportedFinding)) : List ReportedFinding :=
  batches.foldl (fun seen batch =>
    batch.foldl (fun seen finding =>
      keepBetter ReportedFinding.findingFingerprint ReportedFinding.outranks finding seen) seen) []

/-- The fingerprints that a merge selects for, each with the rank of what it selects. -/
def selections (out : List ReportedFinding) : Set (String × (Bool ×ₗ Py.Num ×ₗ Nat)) :=
  {p | ∃ f ∈ out, (f.findingFingerprint, f.rank) = p}

/-- The text under `finding_fingerprint`. -/
def FindingDict.text (d : FindingDict) : String :=
  match getItem d.items "finding_fingerprint" with
  | .str s => s
  | _ => ""

def dictSelections (out : List FindingDict) : Set (String × (Bool ×ₗ Py.Num ×ₗ Nat)) :=
  {p | ∃ d ∈ out, (d.text, d.rank) = p}

/-- The two merges select the same ranks, and the manager's the same in any order of batches. -/
structure MergesAgree (uuid : Nat → String) (batches : List (List ReportedFinding)) : Prop where
  same : selections (mergeFindings batches) =
    dictSelections (dedupeFindingsDicts uuid (batches.flatten.map ReportedFinding.dump))
  order : ∀ batches', batches'.Perm batches →
    selections (mergeFindings batches') = selections (mergeFindings batches)

/-- Two findings that only the outcome of Layer 3 can rank. -/
def Shares (g f : ReportedFinding) : Prop :=
  g.deterministicToolConfirmed = f.deterministicToolConfirmed ∧ g.score = f.score

/-- Some finding of the highest rank has no more confident one after it, and before it every
one of its tool status and confidence is followed by a more confident one. -/
def Decided (gs : List ReportedFinding) : Prop :=
  ∃ before f after, gs = before ++ f :: after ∧ (∀ g ∈ gs, g.rank ≤ f.rank) ∧
    (∀ g ∈ after, g.score ≤ f.score) ∧
      ∀ b₁ g b₂, before = b₁ ++ g :: b₂ → Shares g f → ∃ h ∈ b₂, f.score < h.score

/-- The findings with one fingerprint. -/
def sharing (fs : List ReportedFinding) (fp : String) : List ReportedFinding :=
  fs.filter fun f => f.findingFingerprint = fp

theorem mem_sharing {fs : List ReportedFinding} {fp : String} {f : ReportedFinding} :
    f ∈ sharing fs fp ↔ f ∈ fs ∧ f.findingFingerprint = fp := by
  rw [sharing, List.mem_filter, decide_eq_true_iff]

structure Settled (fs : List ReportedFinding) : Prop where
  named : ∀ f ∈ fs, f.findingFingerprint ≠ "" → Decided (sharing fs f.findingFingerprint)
  unnamed : ∀ f ∈ fs, ∀ g ∈ fs, f.findingFingerprint = "" → g.findingFingerprint = "" →
    f.rank = g.rank

/-! ## The manager's champion -/

namespace ReportedFinding

theorem dump_fingerprint (f : ReportedFinding) :
    f.dump.fingerprint = if f.findingFingerprint = "" then none else some f.findingFingerprint :=
  rfl

theorem dump_text (f : ReportedFinding) : f.dump.text = f.findingFingerprint := rfl

theorem rank_eq (f : ReportedFinding) :
    f.rank = toLex (f.deterministicToolConfirmed, toLex (f.score, f.dump.layer3)) := by
  have hget : f.dump.confidence = f.score := by
    have hfloat : floatOrZero (.float f.confidence) = floatNum f.confidence := floatOrZero_float _
    exact Option.get_inj.mpr hfloat
  rw [rank, FindingDict.rank, hget]
  rfl

/-- What no rank above `f` means for the two things the manager compares. -/
theorem le_of_rank_le {f g : ReportedFinding} (h : g.rank ≤ f.rank) :
    (g.deterministicToolConfirmed = true ∧ f.deterministicToolConfirmed = false → False) ∧
      (g.deterministicToolConfirmed = f.deterministicToolConfirmed → g.score ≤ f.score) := by
  rw [rank_eq, rank_eq, Prod.Lex.toLex_le_toLex] at h
  simp only [Prod.Lex.toLex_le_toLex] at h
  rcases h with h | ⟨h, hscore⟩
  · refine ⟨?_, fun heq => absurd heq h.ne⟩
    rintro ⟨hg, hf⟩
    rw [hg, hf] at h
    exact absurd h (by decide)
  · refine ⟨?_, fun _ => ?_⟩
    · rintro ⟨hg, hf⟩
      rw [hg, hf] at h
      exact absurd h (by decide)
    · rcases hscore with hlt | ⟨heq, -⟩
      · exact hlt.le
      · exact heq.le

theorem outranks_eq_false_iff {g f : ReportedFinding} : g.outranks f = false ↔
    (g.deterministicToolConfirmed = true → f.deterministicToolConfirmed = true) ∧
      g.score ≤ f.score := by
  rw [outranks]
  cases g.deterministicToolConfirmed <;> cases f.deterministicToolConfirmed <;> simp

theorem outranks_of_score_lt {g f : ReportedFinding} (h : f.score < g.score) :
    g.outranks f = true := by
  rw [outranks, decide_eq_true h, Bool.or_true]

/-- A finding of the top rank replaces whatever differs from it in status or confidence. -/
theorem outranks_of_rank_le {f g : ReportedFinding} (h : g.rank ≤ f.rank) (hne : ¬ Shares g f) :
    f.outranks g = true := by
  obtain ⟨htool, hscore⟩ := le_of_rank_le h
  by_cases hsame : g.deterministicToolConfirmed = f.deterministicToolConfirmed
  · exact outranks_of_score_lt ((hscore hsame).lt_of_ne fun heq => hne ⟨hsame, heq⟩)
  · rw [outranks]
    cases hg : g.deterministicToolConfirmed with
    | false =>
      cases hf : f.deterministicToolConfirmed with
      | false => exact absurd (hg.trans hf.symm) hsame
      | true => rfl
    | true =>
      cases hf : f.deterministicToolConfirmed with
      | false => exact (htool ⟨hg, hf⟩).elim
      | true => exact absurd (hg.trans hf.symm) hsame

/-- What a finding of the top status and confidence does not replace shares them. -/
theorem shares_of_not_outranks {f g s : ReportedFinding} (hs : s.rank ≤ f.rank) (hg : Shares g f)
    (h : g.outranks s = false) : Shares s f := by
  by_contra hne
  have houtranks := outranks_of_rank_le hs hne
  obtain ⟨htool, hscore⟩ := outranks_eq_false_iff.mp h
  have hnot : f.outranks s = false :=
    outranks_eq_false_iff.mpr ⟨fun hf => htool (hg.1.trans hf), hg.2 ▸ hscore⟩
  rw [hnot] at houtranks
  exact absurd houtranks (by simp)

end ReportedFinding

open ReportedFinding

/-- As long as nothing more confident comes, a finding of the top status and confidence stays. -/
theorem champion_stays {f y : ReportedFinding} {xs : List ReportedFinding}
    (htop : ∀ x ∈ xs, x.rank ≤ f.rank) (hscore : ∀ x ∈ xs, x.score ≤ f.score) (hy : Shares y f) :
    champion outranks y xs = y := by
  refine champion_eq_self fun x hx => outranks_eq_false_iff.mpr ⟨fun hconf => ?_, ?_⟩
  · cases hf : f.deterministicToolConfirmed with
    | false => exact ((le_of_rank_le (htop x hx)).1 ⟨hconf, hf⟩).elim
    | true => rw [hy.1, hf]
  · rw [hy.2]
    exact hscore x hx

/-- ... and whatever stood before it, the champion shares them. -/
theorem champion_shares {f s g : ReportedFinding} {xs : List ReportedFinding}
    (htop : ∀ x ∈ xs, x.rank ≤ f.rank) (hscore : ∀ x ∈ xs, x.score ≤ f.score)
    (hs : s.rank ≤ f.rank) (hg : Shares g f) : Shares (champion outranks s (g :: xs)) f := by
  rw [champion_cons]
  by_cases houtranks : g.outranks s = true
  · rw [if_pos houtranks, champion_stays htop hscore hg]
    exact hg
  · have hshares := shares_of_not_outranks hs hg (Bool.eq_false_iff.mpr houtranks)
    rw [if_neg houtranks, champion_stays htop hscore hshares]
    exact hshares

theorem decided_of_top {y : ReportedFinding} {ys : List ReportedFinding}
    (htop : ∀ g ∈ y :: ys, g.rank ≤ (champion outranks y ys).rank) : Decided (y :: ys) := by
  obtain ⟨before, after, hsplit, hafter, hbefore⟩ := champion_split outranks y ys
  refine ⟨before, _, after, hsplit, htop,
    fun g hg => (outranks_eq_false_iff.mp (hafter g hg)).2, ?_⟩
  intro b₁ g b₂ hb hg
  by_contra hnone
  simp only [not_exists, not_and, not_lt] at hnone
  have htop' : ∀ x ∈ before, x.rank ≤ (champion outranks y ys).rank := fun x hx =>
    htop x (hsplit ▸ List.mem_append_left _ hx)
  have hb₂ : ∀ x ∈ b₂, x.rank ≤ (champion outranks y ys).rank := fun x hx =>
    htop' x (hb ▸ List.mem_append_right _ (List.mem_cons_of_mem g hx))
  -- what the champion has replaced would share its status and confidence
  have hlast : ∃ b bs, before = b :: bs ∧
      Shares (champion outranks b bs) (champion outranks y ys) := by
    cases b₁ with
    | nil =>
      refine ⟨g, b₂, hb, ?_⟩
      rw [champion_stays hb₂ hnone hg]
      exact hg
    | cons b bs =>
      refine ⟨b, bs ++ g :: b₂, hb, ?_⟩
      have hmem : champion outranks b bs ∈ before := by
        rw [hb]
        exact List.mem_append_left _ (champion_mem b bs)
      rw [champion_append]
      exact champion_shares hb₂ hnone (htop' _ hmem) hg
  obtain ⟨b, bs, hbs, hshares⟩ := hlast
  have hreplaced := hbefore b bs hbs
  have hnot : (champion outranks y ys).outranks (champion outranks b bs) = false :=
    outranks_eq_false_iff.mpr ⟨fun h => hshares.1.trans h, hshares.2.ge⟩
  rw [hnot] at hreplaced
  exact absurd hreplaced (by simp)

theorem champion_of_decided {y : ReportedFinding} {ys : List ReportedFinding}
    (h : Decided (y :: ys)) : ∀ g ∈ y :: ys, g.rank ≤ (champion outranks y ys).rank := by
  obtain ⟨before, f, after, hsplit, htop, hafter, hbefore⟩ := h
  have hstays : champion outranks f after = f :=
    champion_stays (fun x hx => htop x (hsplit ▸ List.mem_append_right _
      (List.mem_cons_of_mem f hx))) hafter ⟨rfl, rfl⟩
  have hfinal : champion outranks y ys = f := by
    cases before with
    | nil =>
      obtain ⟨rfl, rfl⟩ := List.cons.inj hsplit
      exact hstays
    | cons b bs =>
      rw [List.cons_append] at hsplit
      obtain ⟨rfl, rfl⟩ := List.cons.inj hsplit
      obtain ⟨b₁, b₂, hsplit', hb₂, -⟩ := champion_split outranks y bs
      have hrank : (champion outranks y bs).rank ≤ f.rank := by
        apply htop
        rw [← List.cons_append]
        exact List.mem_append_left _ (champion_mem y bs)
      have hne : ¬ Shares (champion outranks y bs) f := by
        intro hshares
        obtain ⟨x, hx, hlt⟩ := hbefore b₁ _ b₂ hsplit' hshares
        have hnot := hb₂ x hx
        rw [outranks_of_score_lt (hshares.2 ▸ hlt)] at hnot
        exact absurd hnot (by simp)
      rw [champion_append, champion_cons, if_pos (outranks_of_rank_le hrank hne), hstays]
  rw [hfinal]
  exact htop

/-! ## The two selections -/

theorem mergeFindings_eq (batches : List (List ReportedFinding)) :
    mergeFindings batches = bestOf findingFingerprint outranks batches.flatten := by
  rw [bestOf, List.foldl_flatten]
  rfl

theorem mem_selections {batches : List (List ReportedFinding)} {fp : String}
    {r : Bool ×ₗ Py.Num ×ₗ Nat} : (fp, r) ∈ selections (mergeFindings batches) ↔
      ∃ y ys, sharing batches.flatten fp = y :: ys ∧ (champion outranks y ys).rank = r := by
  rw [mergeFindings_eq]
  constructor
  · rintro ⟨f, hf, hpair⟩
    obtain ⟨rfl, rfl⟩ := Prod.mk.inj hpair
    obtain ⟨y, ys, hys, rfl⟩ := mem_bestOf_iff.mp hf
    exact ⟨y, ys, hys, rfl⟩
  · rintro ⟨y, ys, hys, rfl⟩
    have hmem : champion outranks y ys ∈ sharing batches.flatten fp := hys ▸ champion_mem y ys
    have hfp := (mem_sharing.mp hmem).2
    exact ⟨_, mem_bestOf_iff.mpr ⟨y, ys, by rw [hfp]; exact hys, rfl⟩, by rw [hfp]⟩

/-- What `dedupe_findings_dicts` selects: every rank without a fingerprint, the highest with one. -/
def Selected (fs : List ReportedFinding) (fp : String) (r : Bool ×ₗ Py.Num ×ₗ Nat) : Prop :=
  ∃ f ∈ sharing fs fp, f.rank = r ∧ (fp ≠ "" → ∀ g ∈ sharing fs fp, g.rank ≤ r)

theorem Selected.perm {fs fs' : List ReportedFinding} {fp : String} {r : Bool ×ₗ Py.Num ×ₗ Nat}
    (h : fs.Perm fs') : Selected fs fp r ↔ Selected fs' fp r := by
  have hmem : ∀ f, f ∈ sharing fs fp ↔ f ∈ sharing fs' fp := fun f => (h.filter _).mem_iff
  simp only [Selected, hmem]

theorem dump_fingerprint_iff {f : ReportedFinding} {fp : String} (hfp : fp ≠ "") :
    f.dump.fingerprint = some fp ↔ f.findingFingerprint = fp := by
  rw [dump_fingerprint]
  constructor
  · intro h
    split at h
    · cases h
    · exact Option.some.inj h
  · intro h
    rw [if_neg (h.trans_ne hfp), h]

theorem mem_group_dump {fs : List ReportedFinding} {fp : String} (hfp : fp ≠ "") {d : FindingDict} :
    d ∈ group (fs.map dump) fp ↔ ∃ f ∈ sharing fs fp, f.dump = d := by
  rw [mem_group, List.mem_map]
  constructor
  · rintro ⟨⟨f, hf, rfl⟩, hfp'⟩
    exact ⟨f, mem_sharing.mpr ⟨hf, (dump_fingerprint_iff hfp).mp hfp'⟩, rfl⟩
  · rintro ⟨f, hf, rfl⟩
    obtain ⟨hf, hfp'⟩ := mem_sharing.mp hf
    exact ⟨⟨f, hf, rfl⟩, (dump_fingerprint_iff hfp).mpr hfp'⟩

section Dedupe
variable {uuid : Nat → String} {fs : List ReportedFinding}
variable (hfresh : Fresh uuid fs.length (fs.map dump))
include hfresh

theorem mem_dictSelections {fp : String} {r : Bool ×ₗ Py.Num ×ₗ Nat} :
    (fp, r) ∈ dictSelections (dedupeFindingsDicts uuid (fs.map dump)) ↔ Selected fs fp r := by
  have hfresh' : Fresh uuid (fs.map dump).length (fs.map dump) := by rwa [List.length_map]
  constructor
  · rintro ⟨d, hd, hpair⟩
    obtain ⟨hmem, hearliest⟩ := mem_dedupe hfresh' hd
    obtain ⟨f, hf, rfl⟩ := List.mem_map.mp hmem
    rw [dump_text] at hpair
    obtain ⟨rfl, rfl⟩ := Prod.mk.inj hpair
    refine ⟨f, mem_sharing.mpr ⟨hf, rfl⟩, rfl, fun hfp g hg => ?_⟩
    exact (hearliest _ ((dump_fingerprint_iff hfp).mpr rfl)).rank_le
      ((mem_group_dump hfp).mpr ⟨g, hg, rfl⟩)
  · rintro ⟨f, hf, rfl, htop⟩
    obtain ⟨hmem, rfl⟩ := mem_sharing.mp hf
    have hdump : f.dump ∈ fs.map dump := List.mem_map_of_mem hmem
    by_cases hfp : f.findingFingerprint = ""
    · have hnone : f.dump.fingerprint = none := by rw [dump_fingerprint, if_pos hfp]
      exact ⟨f.dump, mem_dedupe_of_none hfresh' hdump hnone, rfl⟩
    · have hsome : f.dump.fingerprint = some f.findingFingerprint :=
        (dump_fingerprint_iff hfp).mpr rfl
      obtain ⟨d, hd, hearliest⟩ := exists_mem_dedupe hfresh' hdump hsome
      obtain ⟨g, hg, rfl⟩ := (mem_group_dump hfp).mp hearliest.mem
      have hle : f.rank ≤ g.rank := hearliest.rank_le ((mem_group_dump hfp).mpr ⟨f, hf, rfl⟩)
      refine ⟨g.dump, hd, ?_⟩
      rw [dump_text, (mem_sharing.mp hg).2]
      exact congrArg _ (le_antisymm (htop hfp g hg) hle)

end Dedupe

/-- One list of batches: the selections are the same where every fingerprint is decided. -/
theorem selections_eq_iff {uuid : Nat → String} {batches : List (List ReportedFinding)}
    (hfresh : Fresh uuid batches.flatten.length (batches.flatten.map dump)) :
    selections (mergeFindings batches) =
        dictSelections (dedupeFindingsDicts uuid (batches.flatten.map dump)) ↔
      Settled batches.flatten := by
  have hmem : selections (mergeFindings batches) =
        dictSelections (dedupeFindingsDicts uuid (batches.flatten.map dump)) ↔
      ∀ fp r, (∃ y ys, sharing batches.flatten fp = y :: ys ∧ (champion outranks y ys).rank = r) ↔
        Selected batches.flatten fp r := by
    simp only [Set.ext_iff, Prod.forall, mem_selections, mem_dictSelections hfresh]
  rw [hmem]
  constructor
  · intro h
    constructor
    · intro f hf hfp
      have hshare : f ∈ sharing batches.flatten f.findingFingerprint := mem_sharing.mpr ⟨hf, rfl⟩
      obtain ⟨y, ys, hys⟩ := List.exists_cons_of_ne_nil (List.ne_nil_of_mem hshare)
      obtain ⟨-, -, -, htop⟩ := (h _ _).mp ⟨y, ys, hys, rfl⟩
      have hdecided : Decided (y :: ys) := decided_of_top (hys ▸ htop hfp)
      exact hys.symm ▸ hdecided
    · intro f hf g hg hfp hgfp
      have hsel : ∀ x ∈ batches.flatten, x.findingFingerprint = "" →
          ∃ y ys, sharing batches.flatten "" = y :: ys ∧ (champion outranks y ys).rank = x.rank :=
        fun x hx hxfp => (h "" x.rank).mpr
          ⟨x, mem_sharing.mpr ⟨hx, hxfp⟩, rfl, fun hne => absurd rfl hne⟩
      obtain ⟨y, ys, hys, hf⟩ := hsel f hf hfp
      obtain ⟨y', ys', hys', hg⟩ := hsel g hg hgfp
      obtain ⟨rfl, rfl⟩ := List.cons.inj (hys.symm.trans hys')
      exact hf.symm.trans hg
  · intro h fp r
    constructor
    · rintro ⟨y, ys, hys, rfl⟩
      have hchampion : champion outranks y ys ∈ sharing batches.flatten fp :=
        hys ▸ champion_mem y ys
      refine ⟨_, hchampion, rfl, fun hfp => ?_⟩
      obtain ⟨hin, rfl⟩ := mem_sharing.mp hchampion
      have hdecided : Decided (sharing batches.flatten _) := h.named _ hin hfp
      rw [hys] at hdecided ⊢
      exact champion_of_decided hdecided
    · rintro ⟨f, hf, rfl, htop⟩
      obtain ⟨y, ys, hys⟩ := List.exists_cons_of_ne_nil (List.ne_nil_of_mem hf)
      have hchampion : champion outranks y ys ∈ sharing batches.flatten fp :=
        hys ▸ champion_mem y ys
      refine ⟨y, ys, hys, ?_⟩
      obtain ⟨hin, hfp⟩ := mem_sharing.mp hchampion
      obtain ⟨hf', hffp⟩ := mem_sharing.mp hf
      by_cases hempty : fp = ""
      · exact h.unnamed _ hin f hf' (hfp.trans hempty) (hffp.trans hempty)
      · have hdecided : Decided (sharing batches.flatten f.findingFingerprint) :=
          h.named f hf' (hffp.trans_ne hempty)
        rw [hffp, hys] at hdecided
        exact le_antisymm (htop hempty _ hchampion) (champion_of_decided hdecided f (hys ▸ hf))

theorem Fresh.perm_batches {uuid : Nat → String} {batches batches' : List (List ReportedFinding)}
    (hfresh : Fresh uuid batches.flatten.length (batches.flatten.map dump))
    (h : batches'.Perm batches) :
    Fresh uuid batches'.flatten.length (batches'.flatten.map dump) := by
  have hflat := h.flatten
  rw [hflat.length_eq]
  exact ⟨hfresh.injective, fun f hf => hfresh.apart f ((hflat.map dump).mem_iff.mp hf)⟩

theorem mergesAgree_iff {uuid : Nat → String} {batches : List (List ReportedFinding)}
    (hfresh : Fresh uuid batches.flatten.length (batches.flatten.map dump)) :
    MergesAgree uuid batches ↔ ∀ batches' : List (List ReportedFinding), batches'.Perm batches →
      Settled batches'.flatten := by
  have hsame : ∀ batches' : List (List ReportedFinding), batches'.Perm batches →
      dictSelections (dedupeFindingsDicts uuid (batches'.flatten.map dump)) =
        dictSelections (dedupeFindingsDicts uuid (batches.flatten.map dump)) := by
    intro batches' hperm
    ext ⟨fp, r⟩
    rw [mem_dictSelections (hfresh.perm_batches hperm), mem_dictSelections hfresh,
      Selected.perm hperm.flatten]
  constructor
  · intro h batches' hperm
    rw [← selections_eq_iff (hfresh.perm_batches hperm), h.order batches' hperm, h.same,
      hsame batches' hperm]
  · intro h
    have heq : ∀ batches' : List (List ReportedFinding), batches'.Perm batches →
        selections (mergeFindings batches') =
          dictSelections (dedupeFindingsDicts uuid (batches.flatten.map dump)) := by
      intro batches' hperm
      rw [(selections_eq_iff (hfresh.perm_batches hperm)).mpr (h batches' hperm),
        hsame batches' hperm]
    exact ⟨heq batches (List.Perm.refl batches), fun batches' hperm =>
      (heq batches' hperm).trans (heq batches (List.Perm.refl batches)).symm⟩

/-! ## A confirmed finding replaced -/

/-- A finding of one fingerprint: `tenths` of confidence, below one. -/
def scoredFinding (confirmed : Bool) (tenths : Nat) (h : tenths % 10 ≠ 0) (hlt : tenths < 10) :
    ReportedFinding where
  findingFingerprint := "9f2c"
  deterministicToolConfirmed := confirmed
  confidence := .finite false tenths (-1) h
  inUnit := by
    refine ⟨tenths / 10, by simp [floatNum], by positivity, ?_⟩
    rw [div_le_one (by norm_num)]
    exact_mod_cast hlt.le
  layer3Execution := none
  other := []

theorem five_tenths : 5 % 10 ≠ 0 := by decide
theorem seven_tenths : 7 % 10 ≠ 0 := by decide

def toolFinding : ReportedFinding := scoredFinding true 5 five_tenths (by decide)
def agentFinding : ReportedFinding := scoredFinding false 7 seven_tenths (by decide)

def twoBatches : List (List ReportedFinding) := [[toolFinding], [agentFinding]]

theorem twoBatches_fresh : Fresh uuids twoBatches.flatten.length (twoBatches.flatten.map dump) where
  injective := by decide
  apart := by
    intro f hf
    rcases List.mem_cons.mp hf with rfl | hf
    · decide
    · rcases List.mem_singleton.mp hf with rfl
      decide

theorem mergesAgree_twoBatches : MergesAgree uuids twoBatches ↔
    ∀ batches' : List (List ReportedFinding), batches'.Perm twoBatches →
      Settled batches'.flatten :=
  mergesAgree_iff twoBatches_fresh

theorem score_lt : toolFinding.score < agentFinding.score := by
  decide +kernel

/-- The more confident finding takes the place of the one a tool has confirmed. -/
theorem confirmed_is_replaced : ¬ MergesAgree uuids twoBatches := by
  intro h
  have hsettled := (selections_eq_iff twoBatches_fresh).mp h.same
  have hdecided : Decided [toolFinding, agentFinding] :=
    hsettled.named toolFinding List.mem_cons_self (by decide)
  have htop := champion_of_decided hdecided toolFinding List.mem_cons_self
  rw [champion_cons, if_pos (outranks_of_score_lt score_lt)] at htop
  exact (le_of_rank_le htop).1 ⟨rfl, rfl⟩

end SpineFormal.Verify
