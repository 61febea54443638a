import Mathlib.Algebra.BigOperators.Group.List.Lemmas
import Mathlib.Algebra.Order.BigOperators.Group.List
import Mathlib.Data.List.Perm.Basic
import Mathlib.Data.Rat.Floor
import Mathlib.Tactic.FieldSimp
import Mathlib.Tactic.Linarith

/-!
# Consensus of several providers

`shared/validation/consensus.py`: the verdicts of the secondary providers are counted and
reduced to one result. How a mean is computed and rounded is a parameter; `exact` is the
computation over rationals.
-/

namespace SpineFormal.Validation

set_option autoImplicit false

inductive Verdict where
  | agree | disagree | partialAgree | abstain | error
  deriving DecidableEq

inductive FinalVerdict where
  | validated | needsReview | rejected | indeterminate
  deriving DecidableEq

inductive ConfidenceBand where
  | high | medium | low | untrusted
  deriving DecidableEq

/-- `Field(ge=0.0, le=1.0)`. -/
def InUnit (c : ℚ) : Prop := 0 ≤ c ∧ c ≤ 1

theorem inUnit_zero : InUnit 0 := ⟨le_refl 0, zero_le_one⟩

structure ProviderResult where
  provider : String
  model : String
  verdict : Verdict
  confidence : ℚ
  valid : InUnit confidence
  rationale : String
  costUsd : ℚ

/-- How a mean and `round(·, 4)` are computed, and the number that `0.85` is. -/
structure Arithmetic where
  mean : List ℚ → ℚ
  round : ℚ → ℚ
  high : ℚ
  mean_inUnit : ∀ cs : List ℚ, (∀ c ∈ cs, InUnit c) → InUnit (mean cs)
  round_inUnit : ∀ c, InUnit c → InUnit (round c)

structure ConsensusResult where
  achieved : Bool
  primaryAgreesWithMajority : Bool
  dissentingProviders : List String
  finalVerdict : FinalVerdict
  confidenceBand : ConfidenceBand
  avgConfidence : ℚ
  valid : InUnit avgConfidence
  nAgree : Nat
  nDisagree : Nat
  nPartial : Nat
  nAbstain : Nat
  nError : Nat

/-- `_band`. -/
def band (high : ℚ) (nTotal nAgree nDisagree nError : Nat) (avgConf : ℚ) : ConfidenceBand :=
  if nTotal = 0 then .untrusted
  else if nTotal < nError * 2 then .untrusted
  else if 0 < nDisagree then .low
  else if nAgree = nTotal ∧ high ≤ avgConf then .high
  else .medium

/-- `_final_verdict`. -/
def finalVerdict (nAgree nDisagree nPartial nAbstain nError nTotal : Nat) : FinalVerdict :=
  let nUseful := nTotal - nError
  if nUseful = 0 then .indeterminate
  else if nAbstain = nUseful then .indeterminate
  else if nUseful < nDisagree * 2 then .rejected
  else if 0 < nDisagree ∨ 0 < nPartial then .needsReview
  else if nAgree = nUseful then .validated
  else .needsReview

def countOf (v : Verdict) (rs : List ProviderResult) : Nat := rs.countP (·.verdict = v)

/-- The results that are no errors. -/
def useful (rs : List ProviderResult) : List ProviderResult := rs.filter (·.verdict ≠ .error)

/-- `_AGREEING`. -/
def Verdict.agreeing : Verdict → Bool
  | .agree | .partialAgree => true
  | _ => false

def Verdict.dissenting : Verdict → Bool
  | .disagree | .partialAgree => true
  | _ => false

section
variable (arith : Arithmetic)

def avgConf (rs : List ProviderResult) : ℚ :=
  if useful rs = [] then 0 else arith.mean ((useful rs).map (·.confidence))

theorem avgConf_inUnit (rs : List ProviderResult) : InUnit (avgConf arith rs) := by
  rw [avgConf]
  split
  · exact inUnit_zero
  · apply arith.mean_inUnit
    intro c hc
    obtain ⟨r, _, rfl⟩ := List.mem_map.mp hc
    exact r.valid

/-- `compute_consensus`; the name of the primary model is not used. -/
def computeConsensus (rs : List ProviderResult) : ConsensusResult where
  achieved := decide (0 < rs.length ∧ countOf .disagree rs = 0 ∧ countOf .partialAgree rs = 0 ∧
    countOf .error rs = 0)
  primaryAgreesWithMajority :=
    decide (max (rs.length - countOf .error rs) 1 < rs.countP (·.verdict.agreeing) * 2)
  dissentingProviders :=
    (rs.filter (·.verdict.dissenting)).map fun r => r.provider ++ ":" ++ r.model
  finalVerdict := finalVerdict (countOf .agree rs) (countOf .disagree rs)
    (countOf .partialAgree rs) (countOf .abstain rs) (countOf .error rs) rs.length
  confidenceBand := band arith.high rs.length (countOf .agree rs) (countOf .disagree rs)
    (countOf .error rs) (avgConf arith rs)
  avgConfidence := arith.round (avgConf arith rs)
  valid := arith.round_inUnit _ (avgConf_inUnit arith rs)
  nAgree := countOf .agree rs
  nDisagree := countOf .disagree rs
  nPartial := countOf .partialAgree rs
  nAbstain := countOf .abstain rs
  nError := countOf .error rs

end

/-! ## What the counts say -/

theorem countOf_eq_zero {v : Verdict} {rs : List ProviderResult} :
    countOf v rs = 0 ↔ ∀ r ∈ rs, r.verdict ≠ v := by
  simp [countOf, List.countP_eq_zero]

theorem countOf_eq_length {v : Verdict} {rs : List ProviderResult} :
    countOf v rs = rs.length ↔ ∀ r ∈ rs, r.verdict = v := by
  simp [countOf, List.countP_eq_length]

theorem countOf_perm {v : Verdict} {rs rs' : List ProviderResult} (h : rs'.Perm rs) :
    countOf v rs' = countOf v rs := h.countP_eq _

/-- Where nothing dissents and nothing fails, every result agrees or abstains. -/
theorem achieved_iff {arith : Arithmetic} {rs : List ProviderResult} :
    (computeConsensus arith rs).achieved = true ↔
      rs ≠ [] ∧ ∀ r ∈ rs, r.verdict = .agree ∨ r.verdict = .abstain := by
  rw [computeConsensus, decide_eq_true_iff, List.length_pos_iff, countOf_eq_zero, countOf_eq_zero,
    countOf_eq_zero]
  refine and_congr_right fun _ => ⟨?_, ?_⟩
  · rintro ⟨hdisagree, hpartial, herror⟩ r hr
    have h1 := hdisagree r hr
    have h2 := hpartial r hr
    have h3 := herror r hr
    cases hv : r.verdict <;> simp_all
  · intro h
    refine ⟨fun r hr heq => ?_, fun r hr heq => ?_, fun r hr heq => ?_⟩
    all_goals
      have hr := h r hr
      rw [heq] at hr
      simp at hr

/-- What `achieved` is described as: some provider answers, and all that do agree. -/
def Unanimous (rs : List ProviderResult) : Prop :=
  (∃ r ∈ rs, r.verdict ≠ .error) ∧ ∀ r ∈ rs, r.verdict ≠ .error → r.verdict = .agree

theorem finalVerdict_of_agree {arith : Arithmetic} {rs : List ProviderResult} (hrs : rs ≠ [])
    (h : ∀ r ∈ rs, r.verdict = .agree) :
    (computeConsensus arith rs).finalVerdict = .validated := by
  have hother : ∀ v, v ≠ .agree → countOf v rs = 0 :=
    fun v hv => countOf_eq_zero.mpr fun r hr heq => hv (heq.symm.trans (h r hr))
  have hall : countOf .agree rs = rs.length := countOf_eq_length.mpr h
  have hpos : 0 < rs.length := List.length_pos_iff.mpr hrs
  rw [computeConsensus, finalVerdict, hother .disagree (by decide), hother .partialAgree (by decide),
    hother .abstain (by decide), hother .error (by decide), hall]
  simp [hpos.ne', hpos.ne]

/-! ## The order of the results -/

/-- All but the order of the dissenting providers. -/
structure SameUpToOrder (a b : ConsensusResult) : Prop where
  achieved : a.achieved = b.achieved
  majority : a.primaryAgreesWithMajority = b.primaryAgreesWithMajority
  dissenting : a.dissentingProviders.Perm b.dissentingProviders
  verdict : a.finalVerdict = b.finalVerdict
  band : a.confidenceBand = b.confidenceBand
  confidence : a.avgConfidence = b.avgConfidence
  agree : a.nAgree = b.nAgree
  disagree : a.nDisagree = b.nDisagree
  partialAgree : a.nPartial = b.nPartial
  abstain : a.nAbstain = b.nAbstain
  error : a.nError = b.nError

/-- `sum(…) / len(…)`. -/
def exactMean (cs : List ℚ) : ℚ := cs.sum / cs.length

/-- `round(·, 4)`: four places, halves to the even neighbour. -/
def roundHalfEven (c : ℚ) : ℚ :=
  let n := ⌊c * 10000⌋
  let part := c * 10000 - n
  let up := 1 / 2 < part ∨ (part = 1 / 2 ∧ n % 2 = 1)
  ((if up then n + 1 else n : ℤ) : ℚ) / 10000

theorem sum_inUnit {cs : List ℚ} (h : ∀ c ∈ cs, InUnit c) : 0 ≤ cs.sum ∧ cs.sum ≤ cs.length := by
  induction cs with
  | nil => simp
  | cons c cs ih =>
    have hc := h c List.mem_cons_self
    have hcs := ih fun d hd => h d (List.mem_cons_of_mem c hd)
    rw [List.sum_cons, List.length_cons]
    push_cast
    exact ⟨add_nonneg hc.1 hcs.1, by linarith [hc.2, hcs.2]⟩

theorem exactMean_inUnit (cs : List ℚ) (h : ∀ c ∈ cs, InUnit c) : InUnit (exactMean cs) := by
  obtain ⟨hnonneg, hle⟩ := sum_inUnit h
  exact ⟨div_nonneg hnonneg (Nat.cast_nonneg _), div_le_one_of_le₀ hle (Nat.cast_nonneg _)⟩

theorem roundHalfEven_inUnit (c : ℚ) (h : InUnit c) : InUnit (roundHalfEven c) := by
  have hfloor : 0 ≤ ⌊c * 10000⌋ := Int.floor_nonneg.mpr (mul_nonneg h.1 (by norm_num))
  have htop : ⌊c * 10000⌋ ≤ 10000 := Int.floor_le_iff.mpr (by push_cast; linarith [h.2])
  have hbelow : (⌊c * 10000⌋ : ℚ) ≤ c * 10000 := Int.floor_le _
  have hcases : 0 ≤ (if 1 / 2 < c * 10000 - ⌊c * 10000⌋ ∨
      (c * 10000 - ⌊c * 10000⌋ = 1 / 2 ∧ ⌊c * 10000⌋ % 2 = 1) then ⌊c * 10000⌋ + 1
      else ⌊c * 10000⌋ : ℤ) ∧ (if 1 / 2 < c * 10000 - ⌊c * 10000⌋ ∨
      (c * 10000 - ⌊c * 10000⌋ = 1 / 2 ∧ ⌊c * 10000⌋ % 2 = 1) then ⌊c * 10000⌋ + 1
      else ⌊c * 10000⌋ : ℤ) ≤ 10000 := by
    split
    · rename_i hup
      -- Something was left over, so the floor is not the top.
      have hpart : 0 < c * 10000 - ⌊c * 10000⌋ := by
        rcases hup with hup | ⟨hup, _⟩
        · linarith
        · linarith
      refine ⟨by omega, ?_⟩
      have hlt : (⌊c * 10000⌋ : ℚ) < 10000 := by linarith [h.2]
      have : ⌊c * 10000⌋ < 10000 := by exact_mod_cast hlt
      omega
    · exact ⟨hfloor, htop⟩
  rw [roundHalfEven, InUnit]
  refine ⟨div_nonneg (by exact_mod_cast hcases.1) (by norm_num), ?_⟩
  rw [div_le_one (by norm_num)]
  exact_mod_cast hcases.2

/-- Over exact rationals. -/
def exact : Arithmetic where
  mean := exactMean
  round := roundHalfEven
  high := 85 / 100
  mean_inUnit := exactMean_inUnit
  round_inUnit := roundHalfEven_inUnit

theorem avgConf_perm {rs rs' : List ProviderResult} (h : rs'.Perm rs) :
    avgConf exact rs' = avgConf exact rs := by
  have huseful : (useful rs').Perm (useful rs) := h.filter _
  have hconf := huseful.map (·.confidence)
  have hmean : exactMean ((useful rs').map (·.confidence)) =
      exactMean ((useful rs).map (·.confidence)) := by
    rw [exactMean, exactMean, hconf.sum_eq, hconf.length_eq]
  have hnil : useful rs' = [] ↔ useful rs = [] := by
    rw [← List.length_eq_zero_iff, huseful.length_eq, List.length_eq_zero_iff]
  rw [avgConf, avgConf]
  simp only [hnil]
  split
  · rfl
  · exact hmean

theorem computeConsensus_perm {rs rs' : List ProviderResult} (h : rs'.Perm rs) :
    SameUpToOrder (computeConsensus exact rs') (computeConsensus exact rs) where
  achieved := by
    rw [computeConsensus, computeConsensus]
    simp only [countOf_perm h, h.length_eq]
  majority := by
    rw [computeConsensus, computeConsensus]
    simp only [countOf_perm h, h.length_eq, h.countP_eq]
  dissenting := (h.filter _).map _
  verdict := by
    rw [computeConsensus, computeConsensus]
    simp only [countOf_perm h, h.length_eq]
  band := by
    rw [computeConsensus, computeConsensus]
    simp only [countOf_perm h, h.length_eq, avgConf_perm h]
  confidence := by
    rw [computeConsensus, computeConsensus]
    simp only [avgConf_perm h]
  agree := countOf_perm h
  disagree := countOf_perm h
  partialAgree := countOf_perm h
  abstain := countOf_perm h
  error := countOf_perm h

/-! ## Where the description holds -/

/-- What the result of a list is held to. -/
structure Lawful (rs : List ProviderResult) : Prop where
  achieved : (computeConsensus exact rs).achieved = true ↔ Unanimous rs
  verdict : (computeConsensus exact rs).achieved = true →
    (computeConsensus exact rs).finalVerdict = .validated
  order : ∀ rs' : List ProviderResult, rs'.Perm rs →
    SameUpToOrder (computeConsensus exact rs') (computeConsensus exact rs)

/-- All agree or abstain, and one abstains. -/
def AbstainedThrough (rs : List ProviderResult) : Prop :=
  (∀ r ∈ rs, r.verdict = .agree ∨ r.verdict = .abstain) ∧ ∃ r ∈ rs, r.verdict = .abstain

/-- All agree or fail, and there is one of each. -/
def FailedBeside (rs : List ProviderResult) : Prop :=
  (∀ r ∈ rs, r.verdict = .agree ∨ r.verdict = .error) ∧ (∃ r ∈ rs, r.verdict = .agree) ∧
    ∃ r ∈ rs, r.verdict = .error

theorem achieved_of_abstainedThrough {arith : Arithmetic} {rs : List ProviderResult}
    (h : AbstainedThrough rs) : (computeConsensus arith rs).achieved = true := by
  obtain ⟨r, hr, _⟩ := h.2
  exact achieved_iff.mpr ⟨List.ne_nil_of_mem hr, h.1⟩

theorem unanimous_of_failedBeside {rs : List ProviderResult} (h : FailedBeside rs) :
    Unanimous rs := by
  obtain ⟨hall, ⟨r, hr, hagree⟩, _⟩ := h
  exact ⟨⟨r, hr, by rw [hagree]; decide⟩, fun s hs herror => (hall s hs).resolve_right herror⟩

/-- The description holds exactly where no abstention passes for agreement and no failure
stands beside agreement alone. -/
theorem computeConsensus_lawful_iff (rs : List ProviderResult) :
    Lawful rs ↔ ¬ AbstainedThrough rs ∧ ¬ FailedBeside rs := by
  constructor
  · intro h
    refine ⟨fun habstain => ?_, fun hfailed => ?_⟩
    · have hunanimous := h.achieved.mp (achieved_of_abstainedThrough habstain)
      obtain ⟨r, hr, hverdict⟩ := habstain.2
      have hagree := hunanimous.2 r hr (by rw [hverdict]; decide)
      rw [hverdict] at hagree
      cases hagree
    · have hachieved := h.achieved.mpr (unanimous_of_failedBeside hfailed)
      obtain ⟨_, _, r, hr, hverdict⟩ := hfailed
      rcases (achieved_iff.mp hachieved).2 r hr with heq | heq <;> rw [hverdict] at heq <;> cases heq
  · rintro ⟨habstain, hfailed⟩
    have hall : (computeConsensus exact rs).achieved = true → ∀ r ∈ rs, r.verdict = .agree := by
      intro hachieved r hr
      obtain ⟨_, hverdicts⟩ := achieved_iff.mp hachieved
      exact (hverdicts r hr).resolve_right fun heq => habstain ⟨hverdicts, r, hr, heq⟩
    refine ⟨⟨fun hachieved => ?_, fun hunanimous => ?_⟩, fun hachieved => ?_, ?_⟩
    · obtain ⟨r, hr⟩ := List.exists_mem_of_ne_nil rs (achieved_iff.mp hachieved).1
      exact ⟨⟨r, hr, by rw [hall hachieved r hr]; decide⟩, fun s hs _ => hall hachieved s hs⟩
    · obtain ⟨⟨r, hr, hanswered⟩, hagree⟩ := hunanimous
      refine achieved_iff.mpr ⟨List.ne_nil_of_mem hr, fun s hs => Or.inl ?_⟩
      by_contra hnot
      have herror : s.verdict = .error := by
        by_contra hother
        exact hnot (hagree s hs hother)
      refine hfailed ⟨fun t ht => ?_, ⟨r, hr, hagree r hr hanswered⟩, s, hs, herror⟩
      by_cases hterror : t.verdict = .error
      · exact Or.inr hterror
      · exact Or.inl (hagree t ht hterror)
    · exact finalVerdict_of_agree (achieved_iff.mp hachieved).1 (hall hachieved)
    · exact fun rs' hperm => computeConsensus_perm hperm

def abstention : ProviderResult where
  provider := "openai"
  model := "gpt-4o"
  verdict := .abstain
  confidence := 0
  valid := inUnit_zero
  rationale := "out of scope"
  costUsd := 325 / 100000

/-- One provider that abstains is an achieved consensus. -/
theorem abstention_achieves : ¬ Lawful [abstention] := by
  intro h
  have hunanimous := h.achieved.mp rfl
  have hagree := hunanimous.2 abstention List.mem_cons_self (by decide)
  cases hagree

end SpineFormal.Validation
