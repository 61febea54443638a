import Mathlib.Data.List.Induction
import Mathlib.Data.Rat.Floor
import Mathlib.Tactic.FieldSimp
import Mathlib.Tactic.Ring

/-!
# The cost-aware router

`shared/cost/router.py` over exact rationals: a model is picked from the menu, its cost is
projected and rounded to four places, and the projection is checked against the caps on
today's spend of the project, of the user and of the phase. Spend is read from the ledger
`spine_recording.costs`; a query that fails counts as no spend.
-/

namespace SpineFormal.Cost

set_option autoImplicit false

inductive Tier where
  | low | medium | high | premium
  deriving DecidableEq

/-- `_TIER_RANK`. -/
def Tier.rank : Tier → Nat
  | .low => 0
  | .medium => 1
  | .high => 2
  | .premium => 3

/-- `_q`: four places, halves away from zero. -/
def quantize (d : ℚ) : ℚ :=
  let n : ℚ := ⌊|d| * 10000 + 1 / 2⌋
  (if d < 0 then -n else n) / 10000

structure ModelInfo where
  modelId : String
  provider : String
  tier : Tier
  costPer1kInputTokens : ℚ
  costPer1kOutputTokens : ℚ
  contextWindow : Int

structure ModelOverride where
  modelId : String
  justification : String
  grantedBy : String

structure RouteRequest where
  projectId : Int
  phase : String
  role : String
  intendedTier : Tier
  estimatedInputTokens : Nat
  estimatedOutputTokens : Nat
  actor : String
  override : Option ModelOverride

/-- The section `cost` of a bundle; a cap that is `null` or missing is `none`. -/
structure CostSection where
  dailyCapUsd : Option ℚ
  perProjectCapUsd : Option ℚ
  perPhaseCaps : List (String × Option ℚ)
  allowed : List String
  disallowed : List String

structure Breach where
  label : String
  spent : ℚ
  cap : ℚ

/-- The texts of `rationale`, with the values they are made of. -/
inductive Rationale where
  | noModels
  | overrideBlocked (modelId : String)
  | noTier (intended : Tier)
  | hardCapExceeded (projected : ℚ) (breaches : List Breach)
  | overridden (grantedBy justification : String) (tier : Tier) (projected : ℚ)
  | tierMatched (intended selected : Tier) (projected : ℚ)
  | fallbackUsed (intended selected : Tier) (projected : ℚ)

structure RouteDecision where
  selectedModel : String
  selectedTier : Tier
  rationale : Rationale
  projectedCostUsd : ℚ
  wouldExceedBudget : Bool
  blocked : Bool
  fallbackAttempted : Bool

/-! ## The ledger -/

/-- A row of the ledger, of today. -/
structure Charge where
  projectId : Int
  phase : String
  actor : String
  costUsd : ℚ

abbrev Ledger := List Charge

/-- Which of the three queries psql answers. -/
structure Answered where
  project : Bool
  user : Bool
  phase : Bool

def spendOf (ledger : Ledger) (rows : Charge → Bool) : ℚ :=
  ((ledger.filter rows).map Charge.costUsd).sum

/-- `_spend`. -/
def spend (answered : Bool) (ledger : Ledger) (rows : Charge → Bool) : ℚ :=
  if answered then spendOf ledger rows else 0

def ofProject (projectId : Int) (c : Charge) : Bool := c.projectId = projectId

def ofUser (user : String) (c : Charge) : Bool := c.actor = user

def ofPhase (projectId : Int) (phase : String) (c : Charge) : Bool :=
  c.projectId = projectId && c.phase = phase

structure BudgetStatus where
  projectSpentToday : ℚ
  projectCapToday : ℚ
  userSpentToday : ℚ
  userCapToday : ℚ

/-- `get_budget_status`. -/
def getBudgetStatus (cost : CostSection) (answered : Answered) (ledger : Ledger)
    (projectId : Int) (user : String) : BudgetStatus where
  projectSpentToday := quantize
    (if projectId ≠ 0 then spend answered.project ledger (ofProject projectId) else 0)
  projectCapToday := quantize (cost.perProjectCapUsd.getD 0)
  userSpentToday := quantize (if user ≠ "" then spend answered.user ledger (ofUser user) else 0)
  userCapToday := quantize (cost.dailyCapUsd.getD 0)

/-- `estimate_phase_cost`. -/
def estimatePhaseCost (answered : Answered) (ledger : Ledger) (projectId : Int) (phase : String) :
    ℚ :=
  quantize (spend answered.phase ledger (ofPhase projectId phase))

/-- The cap a bundle gives a phase. -/
def CostSection.capOf (cost : CostSection) (phase : String) : Option ℚ :=
  (cost.perPhaseCaps.find? (·.1 = phase)).bind Prod.snd

/-- `_phase_cap`. -/
def phaseCap (cost : CostSection) (phase : String) : ℚ := (cost.capOf phase).getD 0

/-! ## The menu -/

/-- `list_allowed_models` without a tier, where `lookup` is `_lookup_model`. -/
def listAllowedModels (lookup : String → Option ModelInfo) (cost : CostSection) : List ModelInfo :=
  (cost.allowed.filter (· ∉ cost.disallowed)).filterMap lookup

/-- `_project_cost`. -/
def projectCost (m : ModelInfo) (inTok outTok : Nat) : ℚ :=
  quantize (inTok / 1000 * m.costPer1kInputTokens + outTok / 1000 * m.costPer1kOutputTokens)

/-- The tiers in the order in which they are tried. -/
def tierOrder (tier : Tier) : List Tier :=
  tier :: ([Tier.medium, .high, .premium].filter fun t => tier.rank < t.rank) ++
    [Tier.high, .medium, .low].filter fun t => t.rank < tier.rank

/-- `min(ms, key=…)`: the first of the cheapest. -/
def cheapest : List ModelInfo → Option ModelInfo
  | [] => none
  | m :: ms =>
    match cheapest ms with
    | none => some m
    | some n => if projectCost n 1 1 < projectCost m 1 1 then some n else some m

/-- `_select_for_tier`; whether a fallback was used is whether the tier differs. -/
def selectForTier (menu : List ModelInfo) (tier : Tier) : Option (ModelInfo × Tier) :=
  (tierOrder tier).findSome? fun t => (cheapest (menu.filter (·.tier = t))).map fun m => (m, t)

/-! ## The decision -/

def block (request : RouteRequest) (modelId : String) (rationale : Rationale)
    (fallbackAttempted : Bool) : RouteDecision where
  selectedModel := modelId
  selectedTier := request.intendedTier
  rationale := rationale
  projectedCostUsd := 0
  wouldExceedBudget := false
  blocked := true
  fallbackAttempted := fallbackAttempted

/-- `_b`. -/
def breach (label : String) (projected spent cap : ℚ) : Option Breach :=
  if 0 < cap ∧ cap < spent + projected then some ⟨label, spent, cap⟩ else none

def breaches (cost : CostSection) (answered : Answered) (ledger : Ledger) (request : RouteRequest)
    (projected : ℚ) : List Breach :=
  let status := getBudgetStatus cost answered ledger request.projectId request.actor
  let phaseSpent := estimatePhaseCost answered ledger request.projectId request.phase
  [breach "project today" projected status.projectSpentToday status.projectCapToday,
    breach "user today" projected status.userSpentToday status.userCapToday,
    breach ("phase '" ++ request.phase ++ "' today") projected phaseSpent
      (phaseCap cost request.phase)].filterMap id

/-- The decision for a model that was picked. -/
def decision (cost : CostSection) (answered : Answered) (ledger : Ledger) (request : RouteRequest)
    (selected : ModelInfo) (tier : Tier) (fallback : Bool) (base : ℚ → Rationale) :
    RouteDecision :=
  let projected :=
    projectCost selected request.estimatedInputTokens request.estimatedOutputTokens
  let breached := breaches cost answered ledger request projected
  { selectedModel := selected.modelId
    selectedTier := tier
    rationale := if breached ≠ [] then .hardCapExceeded projected breached else base projected
    projectedCostUsd := projected
    wouldExceedBudget := !breached.isEmpty
    blocked := !breached.isEmpty
    fallbackAttempted := fallback }

/-- `route`. -/
def route (cost : CostSection) (menu : List ModelInfo) (answered : Answered) (ledger : Ledger)
    (request : RouteRequest) : RouteDecision :=
  if menu = [] then block request "" .noModels false
  else
    match request.override with
    | some ov =>
      match menu.find? (·.modelId = ov.modelId) with
      | none => block request ov.modelId (.overrideBlocked ov.modelId) false
      | some selected =>
        decision cost answered ledger request selected selected.tier false
          (.overridden ov.grantedBy ov.justification selected.tier)
    | none =>
      match selectForTier menu request.intendedTier with
      | none => block request "" (.noTier request.intendedTier) true
      | some (selected, tier) =>
        decision cost answered ledger request selected tier (tier ≠ request.intendedTier)
          (if tier = request.intendedTier then .tierMatched request.intendedTier tier
            else .fallbackUsed request.intendedTier tier)

/-! ## Days of calls -/

/-- A call, or the end of a day. -/
inductive Event where
  | call (request : RouteRequest) (answered : Answered)
  | midnight

/-- A call that is not blocked is charged its projected cost; at midnight the ledger of
today is empty. -/
def step (cost : CostSection) (menu : List ModelInfo) (ledger : Ledger) : Event → Ledger
  | .call request answered =>
    let decided := route cost menu answered ledger request
    if decided.blocked then ledger
    else ledger ++ [⟨request.projectId, request.phase, request.actor, decided.projectedCostUsd⟩]
  | .midnight => []

def ledgerOf (cost : CostSection) (menu : List ModelInfo) (events : List Event) : Ledger :=
  events.foldl (step cost menu) []

/-- Caps that are given are not negative. -/
structure CostSection.Nonneg (cost : CostSection) : Prop where
  project : ∀ c, cost.perProjectCapUsd = some c → 0 ≤ c
  user : ∀ c, cost.dailyCapUsd = some c → 0 ≤ c
  phase : ∀ ph c, cost.capOf ph = some c → 0 ≤ c

/-- Today's spend exceeds no cap that is given. -/
structure WithinCaps (cost : CostSection) (ledger : Ledger) : Prop where
  project : ∀ c, cost.perProjectCapUsd = some c → ∀ p, spendOf ledger (ofProject p) ≤ c
  user : ∀ c, cost.dailyCapUsd = some c → ∀ u, spendOf ledger (ofUser u) ≤ c
  phase : ∀ ph c, cost.capOf ph = some c → ∀ p, spendOf ledger (ofPhase p ph) ≤ c

/-- A cap that is above zero and not rounded up when it is read. -/
def Exact (cap : ℚ) : Prop := 0 < quantize cap ∧ quantize cap ≤ cap

/-- What a call needs for the caps to be checked as they are given. -/
structure Enforced (cost : CostSection) (request : RouteRequest) (answered : Answered) : Prop where
  project : ∀ c, cost.perProjectCapUsd = some c →
    answered.project = true ∧ request.projectId ≠ 0 ∧ Exact c
  user : ∀ c, cost.dailyCapUsd = some c → answered.user = true ∧ request.actor ≠ "" ∧ Exact c
  phase : ∀ c, cost.capOf request.phase = some c → answered.phase = true ∧ 0 < c

/-! ## Four places -/

def FourPlaces (x : ℚ) : Prop := ∃ n : ℤ, x = n / 10000

theorem fourPlaces_quantize (d : ℚ) : FourPlaces (quantize d) := by
  rw [quantize]
  split
  · exact ⟨-⌊|d| * 10000 + 1 / 2⌋, by push_cast; rfl⟩
  · exact ⟨⌊|d| * 10000 + 1 / 2⌋, rfl⟩

theorem FourPlaces.add {x y : ℚ} (hx : FourPlaces x) (hy : FourPlaces y) : FourPlaces (x + y) := by
  obtain ⟨m, rfl⟩ := hx
  obtain ⟨n, rfl⟩ := hy
  exact ⟨m + n, by push_cast; ring⟩

theorem quantize_of_fourPlaces {x : ℚ} (h : FourPlaces x) : quantize x = x := by
  obtain ⟨n, rfl⟩ := h
  have habs : |(n : ℚ) / 10000| * 10000 + 1 / 2 = (|n| : ℤ) + 1 / 2 := by
    rw [abs_div, abs_of_pos (by norm_num : (0 : ℚ) < 10000), Int.cast_abs]
    field_simp
  have hfloor : ⌊((|n| : ℤ) : ℚ) + 1 / 2⌋ = |n| := by
    rw [Int.floor_intCast_add]
    norm_num
  rw [quantize, habs, hfloor]
  rcases lt_or_ge n 0 with hn | hn
  · have hneg : (n : ℚ) / 10000 < 0 := div_neg_of_neg_of_pos (by exact_mod_cast hn) (by norm_num)
    rw [if_pos hneg, abs_of_neg hn]
    push_cast
    ring
  · have hpos : ¬ (n : ℚ) / 10000 < 0 :=
      not_lt.mpr (div_nonneg (by exact_mod_cast hn) (by norm_num))
    rw [if_neg hpos, abs_of_nonneg hn]

/-! ## Spend -/

theorem spendOf_append (ledger : Ledger) (c : Charge) (rows : Charge → Bool) :
    spendOf (ledger ++ [c]) rows = spendOf ledger rows + if rows c then c.costUsd else 0 := by
  rw [spendOf, List.filter_append, List.map_append, List.sum_append, ← spendOf]
  by_cases hc : rows c = true <;> simp [hc]

theorem fourPlaces_spendOf {ledger : Ledger} (h : ∀ c ∈ ledger, FourPlaces c.costUsd)
    (rows : Charge → Bool) : FourPlaces (spendOf ledger rows) := by
  induction ledger using List.reverseRecOn with
  | nil => exact ⟨0, by simp [spendOf]⟩
  | append_singleton ledger c ih =>
    rw [spendOf_append]
    refine (ih fun d hd => h d (List.mem_append_left [c] hd)).add ?_
    split
    · exact h c (List.mem_append_right ledger (List.mem_singleton_self c))
    · exact ⟨0, by simp⟩

theorem breach_eq_none_iff (label : String) (projected spent cap : ℚ) :
    breach label projected spent cap = none ↔ (0 < cap → spent + projected ≤ cap) := by
  rw [breach]
  split
  · rename_i h
    exact iff_of_false (Option.some_ne_none _) fun hle => absurd h.2 (not_lt.mpr (hle h.1))
  · rename_i h
    exact iff_of_true rfl fun hcap => not_lt.mp fun hlt => h ⟨hcap, hlt⟩

section
variable {cost : CostSection} {menu : List ModelInfo} {ledger : Ledger} {request : RouteRequest}
variable {answered : Answered}

theorem breaches_eq_nil_iff (projected : ℚ) :
    breaches cost answered ledger request projected = [] ↔
      (0 < quantize (cost.perProjectCapUsd.getD 0) →
        (getBudgetStatus cost answered ledger request.projectId request.actor).projectSpentToday +
          projected ≤ quantize (cost.perProjectCapUsd.getD 0)) ∧
      (0 < quantize (cost.dailyCapUsd.getD 0) →
        (getBudgetStatus cost answered ledger request.projectId request.actor).userSpentToday +
          projected ≤ quantize (cost.dailyCapUsd.getD 0)) ∧
      (0 < phaseCap cost request.phase →
        estimatePhaseCost answered ledger request.projectId request.phase + projected ≤
          phaseCap cost request.phase) := by
  rw [← breach_eq_none_iff "project today", ← breach_eq_none_iff "user today",
    ← breach_eq_none_iff ("phase '" ++ request.phase ++ "' today"), breaches]
  simp [List.filterMap_eq_nil_iff, getBudgetStatus]

/-- A call that is not blocked projects a cost of four places and breaches no cap. -/
theorem route_cases : (route cost menu answered ledger request).blocked = true ∨
    FourPlaces (route cost menu answered ledger request).projectedCostUsd ∧
      breaches cost answered ledger request
        (route cost menu answered ledger request).projectedCostUsd = [] := by
  have hdecision : ∀ selected tier fallback base,
      (decision cost answered ledger request selected tier fallback base).blocked = true ∨
      FourPlaces
          (decision cost answered ledger request selected tier fallback base).projectedCostUsd ∧
        breaches cost answered ledger request
          (decision cost answered ledger request selected tier fallback base).projectedCostUsd =
          [] := by
    intro selected tier fallback base
    refine or_iff_not_imp_left.mpr fun hblocked => ⟨fourPlaces_quantize _, ?_⟩
    simpa [decision] using hblocked
  rw [route]
  split
  · exact Or.inl rfl
  · split
    · split
      · exact Or.inl rfl
      · exact hdecision _ _ _ _
    · split
      · exact Or.inl rfl
      · exact hdecision _ _ _ _

theorem le_of_exact {spent projected c : ℚ} (hc : Exact c)
    (h : 0 < quantize c → spent + projected ≤ quantize c) : spent + projected ≤ c :=
  (h hc.1).trans hc.2

/-- What a charged call leaves of the caps. -/
theorem withinCaps_charged {projected : ℚ} (hplaces : ∀ c ∈ ledger, FourPlaces c.costUsd)
    (hcaps : WithinCaps cost ledger) (henforced : Enforced cost request answered)
    (hnone : breaches cost answered ledger request projected = []) :
    WithinCaps cost (ledger ++ [⟨request.projectId, request.phase, request.actor, projected⟩]) := by
  have hspend := fun rows => quantize_of_fourPlaces (fourPlaces_spendOf hplaces rows)
  obtain ⟨hproject, huser, hphase⟩ := (breaches_eq_nil_iff projected).mp hnone
  constructor
  · intro c hc p
    obtain ⟨hanswered, hid, hexact⟩ := henforced.project c hc
    rw [spendOf_append]
    by_cases hp : request.projectId = p
    · rw [if_pos (by simp [ofProject, hp])]
      have hread : (getBudgetStatus cost answered ledger request.projectId
          request.actor).projectSpentToday = spendOf ledger (ofProject p) := by
        show quantize (if request.projectId ≠ 0 then
          spend answered.project ledger (ofProject request.projectId) else 0) = _
        rw [if_pos hid, spend, if_pos hanswered, hspend, hp]
      rw [hc, Option.getD_some, hread] at hproject
      exact le_of_exact hexact hproject
    · rw [if_neg (by simp [ofProject, hp]), add_zero]
      exact hcaps.project c hc p
  · intro c hc u
    obtain ⟨hanswered, hactor, hexact⟩ := henforced.user c hc
    rw [spendOf_append]
    by_cases hu : request.actor = u
    · rw [if_pos (by simp [ofUser, hu])]
      have hread : (getBudgetStatus cost answered ledger request.projectId
          request.actor).userSpentToday = spendOf ledger (ofUser u) := by
        show quantize (if request.actor ≠ "" then
          spend answered.user ledger (ofUser request.actor) else 0) = _
        rw [if_pos hactor, spend, if_pos hanswered, hspend, hu]
      rw [hc, Option.getD_some, hread] at huser
      exact le_of_exact hexact huser
    · rw [if_neg (by simp [ofUser, hu]), add_zero]
      exact hcaps.user c hc u
  · intro ph c hc p
    rw [spendOf_append]
    by_cases hp : request.projectId = p ∧ request.phase = ph
    · obtain ⟨rfl, rfl⟩ := hp
      obtain ⟨hanswered, hpos⟩ := henforced.phase c hc
      rw [if_pos (by simp [ofPhase])]
      rw [estimatePhaseCost, spend, if_pos hanswered, hspend, phaseCap, hc, Option.getD_some]
        at hphase
      exact hphase hpos
    · rw [if_neg (by simpa [ofPhase] using hp), add_zero]
      exact hcaps.phase ph c hc p

theorem WithinCaps.nil (h : cost.Nonneg) : WithinCaps cost [] where
  project c hc _ := h.project c hc
  user c hc _ := h.user c hc
  phase ph c hc _ := h.phase ph c hc

/-- A day's calls, each with what it needs, never exceed a cap. -/
theorem ledgerOf_withinCaps (hcaps : cost.Nonneg) {events : List Event}
    (h : ∀ request answered, .call request answered ∈ events → Enforced cost request answered)
    {pre : List Event} (hpre : pre <+: events) : WithinCaps cost (ledgerOf cost menu pre) := by
  have hboth : WithinCaps cost (ledgerOf cost menu pre) ∧
      ∀ c ∈ ledgerOf cost menu pre, FourPlaces c.costUsd := by
    induction pre using List.reverseRecOn with
    | nil => exact ⟨WithinCaps.nil hcaps, fun _ hc => absurd hc List.not_mem_nil⟩
    | append_singleton pre event ih =>
      obtain ⟨hwithin, hplaces⟩ := ih ((List.prefix_append pre [event]).trans hpre)
      have hmem : event ∈ events :=
        hpre.subset (List.mem_append_right pre (List.mem_singleton_self event))
      rw [ledgerOf, List.foldl_append, ← ledgerOf, List.foldl_cons, List.foldl_nil]
      cases event with
      | midnight => exact ⟨WithinCaps.nil hcaps, fun _ hc => absurd hc List.not_mem_nil⟩
      | call request answered =>
        rw [step]
        split
        · exact ⟨hwithin, hplaces⟩
        · rename_i hblocked
          obtain ⟨hplace, hnone⟩ := route_cases.resolve_left hblocked
          refine ⟨withinCaps_charged hplaces hwithin (h request answered hmem) hnone, ?_⟩
          intro c hc
          rcases List.mem_append.mp hc with hc | hc
          · exact hplaces c hc
          · obtain rfl := List.mem_singleton.mp hc
            exact hplace
  exact hboth.1

end

/-! ## One small model -/

def haiku : ModelInfo where
  modelId := "claude-haiku-3.5"
  provider := "anthropic"
  tier := .low
  costPer1kInputTokens := 1 / 1000
  costPer1kOutputTokens := 1 / 200
  contextWindow := 200000

def haikuRequest : RouteRequest where
  projectId := 7
  phase := "build"
  role := "engineer"
  intendedTier := .low
  estimatedInputTokens := 1000
  estimatedOutputTokens := 1000
  actor := "ada"
  override := none

/-- Caps of a dollar a user and of two dollars a phase. -/
def dollarCaps : CostSection where
  dailyCapUsd := some 1
  perProjectCapUsd := none
  perPhaseCaps := [("build", some 2)]
  allowed := ["claude-haiku-3.5"]
  disallowed := []

theorem ledgerOf_withinCaps_haiku :
    WithinCaps dollarCaps (ledgerOf dollarCaps [haiku]
      [.call haikuRequest ⟨true, true, true⟩, .call haikuRequest ⟨true, true, true⟩]) := by
  have hphase : ∀ ph c, dollarCaps.capOf ph = some c → c = 2 := by
    intro ph c hc
    by_cases hb : "build" = ph
    · simpa [CostSection.capOf, dollarCaps, hb, eq_comm] using hc
    · simp [CostSection.capOf, dollarCaps, hb] at hc
  refine ledgerOf_withinCaps ?_ ?_ (List.prefix_refl _)
  · refine ⟨?_, ?_, ?_⟩
    · simp [dollarCaps]
    · simp [dollarCaps]
    · intro ph c hc
      rw [hphase ph c hc]
      norm_num
  · intro request answered hcall
    obtain ⟨rfl, rfl⟩ : request = haikuRequest ∧ answered = ⟨true, true, true⟩ := by
      simpa using hcall
    refine ⟨?_, ?_, ?_⟩
    · simp [dollarCaps]
    · intro c hc
      obtain rfl : 1 = c := by simpa [dollarCaps] using hc
      have hone : quantize 1 = 1 := quantize_of_fourPlaces ⟨10000, by norm_num⟩
      exact ⟨rfl, by decide, by rw [hone]; norm_num, by rw [hone]⟩
    · intro c hc
      exact ⟨rfl, by rw [hphase _ c hc]; norm_num⟩

/-- A cap of zero, which is read as no cap. -/
def zeroCap : CostSection where
  dailyCapUsd := none
  perProjectCapUsd := some 0
  perPhaseCaps := []
  allowed := ["claude-haiku-3.5"]
  disallowed := []

theorem zero_cap_is_exceeded :
    zeroCap.Nonneg ∧
      ¬ WithinCaps zeroCap (ledgerOf zeroCap [haiku] [.call haikuRequest ⟨true, true, true⟩]) := by
  refine ⟨⟨by simp [zeroCap], by simp [zeroCap], by simp [zeroCap, CostSection.capOf]⟩, ?_⟩
  intro h
  have hspent := h.project 0 rfl 7
  revert hspent
  decide +kernel

end SpineFormal.Cost
