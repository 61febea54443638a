import Mathlib.Algebra.Order.Field.Power
import SpineFormal.Json.Loads
import SpineFormal.Validation.Consensus

/-!
# Cross-LLM validation

`shared/validation/cross_llm.py` with the phase policy of `config.py`: the secondary
providers are asked, each reply is parsed, and the verdicts are reduced to a consensus. The
audit row, whose failures are swallowed, and the clock are left out. `none` is an exception
that leaves `cross_validate`.
-/

namespace SpineFormal.Validation

open Json
set_option autoImplicit false

inductive Provider where
  | anthropic | openai | bedrock | vertex | ollama | qwen | vllm
  deriving DecidableEq

def Provider.value : Provider → String
  | .anthropic => "anthropic"
  | .openai => "openai"
  | .bedrock => "bedrock"
  | .vertex => "vertex"
  | .ollama => "ollama"
  | .qwen => "qwen"
  | .vllm => "vllm"

/-- `_DEFAULT_VALIDATOR_MODELS`. -/
def Provider.validatorModel : Provider → String
  | .anthropic => "claude-sonnet-4"
  | .openai => "gpt-4o"
  | .bedrock => "bedrock:anthropic.claude-3-5-sonnet-20240620-v1:0"
  | .vertex => "vertex:gemini-1.5-pro"
  | .ollama => "ollama:llama3.1:8b"
  | .qwen => "qwen:qwen2.5-72b-instruct"
  | .vllm => "vllm:meta-llama/Meta-Llama-3.1-8B-Instruct"

/-- `_APPROX_COST`. -/
def Provider.approxCost : Provider → ℚ
  | .anthropic => 45 / 10000
  | .openai => 325 / 100000
  | .bedrock => 45 / 10000
  | .vertex => 40 / 10000
  | .ollama => 0
  | .vllm => 0
  | .qwen => 10 / 10000

inductive Severity where
  | critical | high | medium | low
  deriving DecidableEq

structure ValidationRequest where
  primaryModel : String
  phase : String
  severity : Severity

/-! ## Whether to ask -/

/-- `DEFAULT_CROSS_LLM_PHASES`. -/
def defaultCrossLlmPhases : List (String × Bool) :=
  [("discovery", false), ("technical_review", true), ("decomposition", false), ("build", true),
    ("verify", true), ("acceptance", false)]

/-- `_SEVERITY_RANK`. -/
def Severity.rank : Severity → Nat
  | .low => 0
  | .medium => 1
  | .high => 2
  | .critical => 3

/-- `should_cross_validate`; the flag is what `_bundle_override` reads. The severity floor is
`high`. -/
def shouldCrossValidate (phase : String) (severity : Severity) (bundleOverride : Option Bool) :
    Bool :=
  severity = .critical ||
    (bundleOverride.getD ((defaultCrossLlmPhases.lookup phase).getD false) &&
      decide (Severity.high.rank ≤ severity.rank))

/-- `_MODEL_PREFIX_PROVIDER`. -/
def modelPrefixProvider : List (List String × Provider) :=
  [(["claude"], .anthropic), (["gpt", "o1", "o3"], .openai), (["bedrock:"], .bedrock),
    (["vertex:"], .vertex), (["ollama:"], .ollama), (["qwen:"], .qwen), (["vllm:"], .vllm)]

/-- `lower`, as far as it leads to a single ASCII character: the letters and the Kelvin sign. -/
def lowerAscii (c : Char) : Char := if c = '\u212a' then 'k' else c.toLower

/-- `_infer_primary_provider`. -/
def inferPrimaryProvider (modelId : String) : Option Provider :=
  let mid := modelId.toList.map lowerAscii
  modelPrefixProvider.findSome? fun row =>
    if row.1.any fun p => p.toList.isPrefixOf mid then some row.2 else none

/-- The secondaries in the order in which they are asked. -/
def secondaries (request : ValidationRequest) (available additional : List Provider) :
    List Provider :=
  additional.foldl
    (fun ps extra => if extra ∉ ps ∧ extra ∈ available then ps ++ [extra] else ps)
    (available.filter fun p => inferPrimaryProvider request.primaryModel ≠ some p)

/-! ## Reading a reply -/

/-- What the interpreter and pydantic decide: whether `json.loads` gives up on a text with an
error that is no `JSONDecodeError` (nesting too deep, an integer too long), whether the
rationale in a text has a surrogate without its pair, `float` on a text, and `str` and
`repr`. -/
structure Python where
  overLimit : List Char → Bool
  unpaired : List Char → Bool
  readFloat : String → Option PyFloat
  str : Value → String
  unknownVerdict : Option Value → String

/-- The least magnitude that is no float any more. -/
def floatLimit : ℚ := 2 ^ 1024 - 2 ^ 970

/-- How `float(·)` ends. -/
inductive FloatResult where
  | value (x : PyFloat)
  /-- `TypeError` or `ValueError`. -/
  | refused
  /-- `OverflowError`. -/
  | overflow

def toFloat (py : Python) : Value → FloatResult
  | .float x => .value x
  | .bool b => .value (PyFloat.ofDecimal false b.toNat 0)
  | .int n =>
    if floatLimit ≤ |(n : ℚ)| then .overflow
    else .value (PyFloat.ofDecimal (n < 0) n.natAbs 0)
  | .str s =>
    match py.readFloat s with
    | some x => .value x
    | none => .refused
  | _ => .refused

/-- `max(0.0, min(1.0, ·))`. A comparison with `nan` is false, and `min` keeps its first
argument. -/
def clamp : PyFloat → ℚ
  | .nan => 1
  | .inf neg => if neg then 0 else 1
  | .zero _ => 0
  | .finite neg coeff exp _ => if neg then 0 else min 1 (coeff * (10 : ℚ) ^ exp)

theorem clamp_inUnit (x : PyFloat) : InUnit (clamp x) := by
  cases x with
  | nan => exact ⟨zero_le_one, le_refl 1⟩
  | inf neg => cases neg <;> simp [clamp, InUnit]
  | zero neg => exact inUnit_zero
  | finite neg coeff exp canonical =>
    rw [clamp]
    split
    · exact inUnit_zero
    · have hten : (0 : ℚ) ≤ 10 ^ exp := zpow_nonneg (by norm_num) exp
      exact ⟨le_min zero_le_one (mul_nonneg (Nat.cast_nonneg coeff) hten), min_le_left ..⟩

/-- A number that is neither `nan` nor infinite when it is read. -/
def IsFinite : PyFloat → Prop
  | .nan => False
  | .inf _ => False
  | .zero _ => True
  | .finite _ coeff exp _ => coeff * (10 : ℚ) ^ exp < floatLimit

/-- The verdicts a validator may give. -/
def verdictNames : List (String × Verdict) :=
  [("agree", .agree), ("disagree", .disagree), ("partial_agree", .partialAgree),
    ("abstain", .abstain)]

/-- `str(·).lower()` as one of them. -/
def knownVerdict : Option Value → Option Verdict
  | some (.str s) =>
    (verdictNames.find? (·.1 = String.ofList (s.toList.map lowerAscii))).map Prod.snd
  | _ => none

structure Reply where
  verdict : Verdict
  confidence : ℚ
  valid : InUnit confidence
  rationale : String

def Reply.error (rationale : String) : Reply where
  verdict := .error
  confidence := 0
  valid := inUnit_zero
  rationale := rationale

/-- `str(data.get("rationale", ""))[:512]`. -/
def rationaleOf (py : Python) (ms : Members) : String :=
  match (dictGet ms "rationale").getD (.str "") with
  | .str s => String.ofList (s.toList.take 512)
  | v => String.ofList ((py.str v).toList.take 512)

/-- `_parse_validator_reply`. -/
def parseValidatorReply (py : Python) (raw : List Char) : Option Reply :=
  if py.overLimit raw then none
  else
    match loadsText raw with
    | none => some (.error "validator reply was not valid JSON")
    | some (.obj ms) =>
      match knownVerdict (dictGet ms "verdict") with
      | none => some (.error ("unknown verdict: " ++ py.unknownVerdict (dictGet ms "verdict")))
      | some v =>
        match toFloat py ((dictGet ms "confidence").getD (.float (.zero false))) with
        | .value x => some ⟨v, clamp x, clamp_inUnit x, rationaleOf py ms⟩
        | .refused => some ⟨v, 0, inUnit_zero, rationaleOf py ms⟩
        | .overflow => none
    -- Only a dictionary has a `get`.
    | some _ => none

/-- How a call through `shared.llm` ends. -/
inductive CallOutcome where
  | replied (raw : List Char)
  | importError (msg : String)
  | failed (msg : String)

def resultOf (p : Provider) (reply : Reply) (costUsd : ℚ) : ProviderResult where
  provider := p.value
  model := p.validatorModel
  verdict := reply.verdict
  confidence := reply.confidence
  valid := reply.valid
  rationale := reply.rationale
  costUsd := costUsd

/-- `_validate_with_provider`. A rationale with a lone surrogate is no `str` for pydantic. -/
def validateWithProvider (py : Python) (call : Provider → CallOutcome) (p : Provider) :
    Option ProviderResult :=
  match call p with
  | .importError msg =>
    some (resultOf p (.error (p.value ++ " adapter dependency missing: " ++ msg)) 0)
  | .failed msg => some (resultOf p (.error ("provider call failed: " ++ msg)) 0)
  | .replied raw =>
    match parseValidatorReply py raw with
    | none => none
    | some reply =>
      if reply.verdict ≠ .error ∧ py.unpaired raw then none
      else some (resultOf p reply p.approxCost)

/-! ## The result -/

inductive SkippedReason where
  | belowThreshold (phase : String) (severity : Severity)
  | singleProvider

structure CrossLLMValidationResult where
  request : ValidationRequest
  providerResults : List ProviderResult
  consensus : ConsensusResult
  totalCostUsd : ℚ
  skippedReason : Option SkippedReason
  effectiveConfidenceCap : ℚ

/-- `_skip_result`. -/
def skipResult (request : ValidationRequest) (reason : SkippedReason) (cap : ℚ)
    (band : ConfidenceBand) : CrossLLMValidationResult where
  request := request
  providerResults := []
  consensus :=
    { achieved := false
      primaryAgreesWithMajority := false
      dissentingProviders := []
      finalVerdict := .indeterminate
      confidenceBand := band
      avgConfidence := 0
      valid := inUnit_zero
      nAgree := 0
      nDisagree := 0
      nPartial := 0
      nAbstain := 0
      nError := 0 }
  totalCostUsd := 0
  skippedReason := some reason
  effectiveConfidenceCap := cap

/-- What a run of `cross_validate` meets. -/
structure Deployment where
  bundleOverride : Option Bool
  /-- `_available_providers`. -/
  available : List Provider
  additional : List Provider
  call : Provider → CallOutcome

section
variable (py : Python) (arith : Arithmetic)

def crossValidate (d : Deployment) (request : ValidationRequest) :
    Option CrossLLMValidationResult :=
  if !shouldCrossValidate request.phase request.severity d.bundleOverride then
    some (skipResult request (.belowThreshold request.phase request.severity) 1 .low)
  else if secondaries request d.available d.additional = [] then
    some (skipResult request .singleProvider (7 / 10) .untrusted)
  else
    ((secondaries request d.available d.additional).mapM (validateWithProvider py d.call)).map
      fun results =>
        { request := request
          providerResults := results
          consensus := computeConsensus arith results
          totalCostUsd := (results.map (·.costUsd)).sum
          skippedReason := none
          effectiveConfidenceCap := 1 }

end

/-- The providers a run asks. -/
def asked (d : Deployment) (request : ValidationRequest) : List Provider :=
  if shouldCrossValidate request.phase request.severity d.bundleOverride then
    secondaries request d.available d.additional
  else []

section
variable {py : Python} {arith : Arithmetic} {d : Deployment} {request : ValidationRequest}

theorem crossValidate_isSome_iff : (crossValidate py arith d request).isSome = true ↔
    ∀ p ∈ asked d request, (validateWithProvider py d.call p).isSome = true := by
  rw [crossValidate, asked]
  cases shouldCrossValidate request.phase request.severity d.bundleOverride with
  | false => simp
  | true =>
    simp only [Bool.not_true, Bool.false_eq_true, if_false, if_true]
    split
    · rename_i hnil
      simp [hnil]
    · rw [Option.isSome_map, mapM_isSome_iff]

/-- The results of a run are those of the providers it asked, and the consensus is theirs. -/
theorem crossValidate_results {result : CrossLLMValidationResult}
    (h : crossValidate py arith d request = some result) :
    (asked d request).mapM (validateWithProvider py d.call) = some result.providerResults ∧
      (result.providerResults ≠ [] →
        result.consensus = computeConsensus arith result.providerResults) := by
  rw [crossValidate] at h
  rw [asked]
  cases hshould : shouldCrossValidate request.phase request.severity d.bundleOverride with
  | false =>
    rw [hshould] at h
    obtain rfl := Option.some.inj h
    exact ⟨rfl, fun hnil => absurd rfl hnil⟩
  | true =>
    rw [hshould, Bool.not_true, if_neg Bool.false_ne_true] at h
    rw [if_pos rfl]
    split at h
    · rename_i hnone
      obtain rfl := Option.some.inj h
      rw [hnone]
      exact ⟨rfl, fun hnil => absurd rfl hnil⟩
    · obtain ⟨results, hmapM, rfl⟩ := Option.map_eq_some_iff.mp h
      exact ⟨hmapM, fun _ => rfl⟩

end

/-! ## Replies that are read as they should be -/

/-- A JSON object with a known verdict and a finite confidence. -/
def WellFormed (py : Python) (raw : List Char) : Prop :=
  ∃ ms v c x, loadsText raw = some (.obj ms) ∧ knownVerdict (dictGet ms "verdict") = some v ∧
    dictGet ms "confidence" = some c ∧ toFloat py c = .value x ∧ IsFinite x

/-- No limit of the interpreter is met, and the text is no JSON, or an object without a known
verdict, or well formed with a rationale that is a text. -/
def Tame (py : Python) (raw : List Char) : Prop :=
  py.overLimit raw = false ∧
    (loadsText raw = none ∨
      (∃ ms, loadsText raw = some (.obj ms) ∧ knownVerdict (dictGet ms "verdict") = none) ∨
      (WellFormed py raw ∧ py.unpaired raw = false))

theorem knownVerdict_ne_error {o : Option Value} {v : Verdict} (h : knownVerdict o = some v) :
    v ≠ .error := by
  unfold knownVerdict at h
  split at h
  · obtain ⟨row, hrow, rfl⟩ := Option.map_eq_some_iff.mp h
    have hnames : ∀ row ∈ verdictNames, row.2 ≠ .error := by decide
    exact hnames row (List.mem_of_find?_eq_some hrow)
  · cases h

section
variable {py : Python} {call : Provider → CallOutcome} {p : Provider} {raw : List Char}

/-- What a reply that does not raise comes to: an error, or the verdict of an object whose
confidence is read or refused. -/
theorem parseValidatorReply_cases {reply : Reply} (h : parseValidatorReply py raw = some reply) :
    py.overLimit raw = false ∧
      ((reply.verdict = .error ∧ (loadsText raw = none ∨
          ∃ ms, loadsText raw = some (.obj ms) ∧ knownVerdict (dictGet ms "verdict") = none)) ∨
        ∃ ms, loadsText raw = some (.obj ms) ∧
          knownVerdict (dictGet ms "verdict") = some reply.verdict ∧
          toFloat py ((dictGet ms "confidence").getD (.float (.zero false))) ≠ .overflow) := by
  rw [parseValidatorReply] at h
  split at h
  · cases h
  · rename_i hlimit
    refine ⟨by simpa using hlimit, ?_⟩
    cases hloads : loadsText raw with
    | none =>
      rw [hloads] at h
      obtain rfl := Option.some.inj h
      exact Or.inl ⟨rfl, Or.inl rfl⟩
    | some v =>
      cases v with
      | obj ms =>
        simp only [hloads] at h
        cases hknown : knownVerdict (dictGet ms "verdict") with
        | none =>
          rw [hknown] at h
          obtain rfl := Option.some.inj h
          exact Or.inl ⟨rfl, Or.inr ⟨ms, rfl, hknown⟩⟩
        | some v =>
          simp only [hknown] at h
          refine Or.inr ⟨ms, rfl, ?_, ?_⟩
          · split at h <;> cases h <;> exact hknown
          · intro hover
            rw [hover] at h
            cases h
      | _ => simp [hloads] at h

/-- An ill-formed reply that is tame comes to an error. -/
theorem parseValidatorReply_of_tame (h : Tame py raw) :
    ∃ reply, parseValidatorReply py raw = some reply ∧
      ((reply.verdict = .error) ∨ (WellFormed py raw ∧ py.unpaired raw = false)) := by
  obtain ⟨hlimit, hnone | ⟨ms, hobj, hunknown⟩ | ⟨hwell, hpaired⟩⟩ := h
  · refine ⟨.error "validator reply was not valid JSON", ?_, Or.inl rfl⟩
    rw [parseValidatorReply, if_neg (by simp [hlimit]), hnone]
  · refine ⟨.error ("unknown verdict: " ++ py.unknownVerdict (dictGet ms "verdict")), ?_,
      Or.inl rfl⟩
    rw [parseValidatorReply, if_neg (by simp [hlimit]), hobj]
    simp only [hunknown]
  · obtain ⟨ms, v, c, x, hobj, hknown, hconf, hfloat, _⟩ := id hwell
    refine ⟨⟨v, clamp x, clamp_inUnit x, rationaleOf py ms⟩, ?_, Or.inr ⟨hwell, hpaired⟩⟩
    rw [parseValidatorReply, if_neg (by simp [hlimit]), hobj]
    simp only [hknown, hconf, Option.getD_some, hfloat]

theorem validateWithProvider_replied (hcall : call p = .replied raw) {r : ProviderResult} :
    validateWithProvider py call p = some r ↔
      ∃ reply, parseValidatorReply py raw = some reply ∧
        ¬ (reply.verdict ≠ .error ∧ py.unpaired raw = true) ∧ r = resultOf p reply p.approxCost := by
  rw [validateWithProvider, hcall]
  dsimp only
  cases parseValidatorReply py raw with
  | none => simp
  | some reply =>
    simp only [Option.some.injEq, exists_eq_left']
    split
    · rename_i hpaired
      exact iff_of_false (by simp) fun h => h.1 hpaired
    · rename_i hpaired
      rw [Option.some.injEq, eq_comm]
      exact (and_iff_right hpaired).symm

theorem provider_of_validate {r : ProviderResult}
    (h : validateWithProvider py call p = some r) : r.provider = p.value := by
  cases hcall : call p with
  | replied raw =>
    obtain ⟨reply, _, _, rfl⟩ := (validateWithProvider_replied hcall).mp h
    rfl
  | importError msg =>
    rw [validateWithProvider, hcall] at h
    obtain rfl := Option.some.inj h
    rfl
  | failed msg =>
    rw [validateWithProvider, hcall] at h
    obtain rfl := Option.some.inj h
    rfl

/-- The tame replies are those that give a result, and an error where they are ill formed. -/
theorem tame_iff (hcall : call p = .replied raw) :
    Tame py raw ↔ ∃ r, validateWithProvider py call p = some r ∧
      (¬ WellFormed py raw → r.verdict = .error) := by
  constructor
  · intro htame
    obtain ⟨reply, hparse, hcase⟩ := parseValidatorReply_of_tame htame
    refine ⟨resultOf p reply p.approxCost, (validateWithProvider_replied hcall).mpr
      ⟨reply, hparse, ?_, rfl⟩, fun hill => ?_⟩
    · rintro ⟨hverdict, hunpaired⟩
      rcases hcase with herror | ⟨_, hpaired⟩
      · exact hverdict herror
      · rw [hpaired] at hunpaired
        cases hunpaired
    · exact hcase.resolve_right fun h => hill h.1
  · rintro ⟨r, hr, hill⟩
    obtain ⟨reply, hparse, hpaired, rfl⟩ := (validateWithProvider_replied hcall).mp hr
    obtain ⟨hlimit, ⟨_, hnone | hunknown⟩ | ⟨ms, hobj, hknown, _⟩⟩ :=
      parseValidatorReply_cases hparse
    · exact ⟨hlimit, Or.inl hnone⟩
    · exact ⟨hlimit, Or.inr (Or.inl hunknown)⟩
    · have hverdict : reply.verdict ≠ .error := knownVerdict_ne_error hknown
      have hwell : WellFormed py raw := by
        by_contra hnot
        exact hverdict (hill hnot)
      refine ⟨hlimit, Or.inr (Or.inr ⟨hwell, ?_⟩)⟩
      cases hunpaired : py.unpaired raw with
      | false => rfl
      | true => exact absurd ⟨hverdict, hunpaired⟩ hpaired

end

/-! ## What an error adds -/

theorem useful_insert {pre post : List ProviderResult} {r : ProviderResult}
    (h : r.verdict = .error) : useful (pre ++ r :: post) = useful (pre ++ post) := by
  simp [useful, List.filter_append, h]

def ConfidenceBand.rank : ConfidenceBand → Nat
  | .untrusted => 0
  | .low => 1
  | .medium => 2
  | .high => 3

/-- One error more never lifts the band. -/
theorem band_error_le (high avg : ℚ) {nTotal nAgree nDisagree nError : Nat}
    (hagree : nAgree ≤ nTotal) :
    (band high (nTotal + 1) nAgree nDisagree (nError + 1) avg).rank ≤
      (band high nTotal nAgree nDisagree nError avg).rank := by
  unfold band
  rw [if_neg (Nat.succ_ne_zero nTotal), if_neg (fun h => absurd h.1 (by omega) :
    ¬ (nAgree = nTotal + 1 ∧ high ≤ avg))]
  split_ifs <;> first | omega | decide

theorem countOf_insert {pre post : List ProviderResult} {r : ProviderResult} (v : Verdict) :
    countOf v (pre ++ r :: post) = countOf v (pre ++ post) + if r.verdict = v then 1 else 0 := by
  rw [countOf, countOf, List.countP_append, List.countP_append, List.countP_cons]
  by_cases hv : r.verdict = v <;> simp [hv] <;> omega

/-- The confidence of a list with one error more: the mean is the same, and the band is not
above. -/
theorem confidence_insert {arith : Arithmetic} {pre post : List ProviderResult}
    {r : ProviderResult} (h : r.verdict = .error) :
    (computeConsensus arith (pre ++ r :: post)).avgConfidence =
        (computeConsensus arith (pre ++ post)).avgConfidence ∧
      (computeConsensus arith (pre ++ r :: post)).confidenceBand.rank ≤
        (computeConsensus arith (pre ++ post)).confidenceBand.rank := by
  have havg : avgConf arith (pre ++ r :: post) = avgConf arith (pre ++ post) := by
    rw [avgConf, avgConf, useful_insert h]
  have hlength : (pre ++ r :: post).length = (pre ++ post).length + 1 := by
    simp only [List.length_append, List.length_cons]
    omega
  have hcount : ∀ v, v ≠ .error → countOf v (pre ++ r :: post) = countOf v (pre ++ post) := by
    intro v hv
    rw [countOf_insert, if_neg (fun heq => hv (heq.symm.trans h)), Nat.add_zero]
  have herror : countOf .error (pre ++ r :: post) = countOf .error (pre ++ post) + 1 := by
    rw [countOf_insert, if_pos h]
  refine ⟨congrArg arith.round havg, ?_⟩
  show (band arith.high _ _ _ _ _).rank ≤ (band arith.high _ _ _ _ _).rank
  rw [havg, hlength, hcount .agree (by decide), hcount .disagree (by decide), herror]
  exact band_error_le _ _ List.countP_le_length

/-! ## Where the validator is safe -/

/-- A run gives a result; an ill-formed reply counts as an error in it, and lifts neither the
confidence nor its band above what the other results give. -/
structure Safe (py : Python) (arith : Arithmetic) (d : Deployment)
    (request : ValidationRequest) : Prop where
  returns : (crossValidate py arith d request).isSome = true
  errors : ∀ result, crossValidate py arith d request = some result →
    ∀ r ∈ result.providerResults, ∀ p : Provider, r.provider = p.value →
      ∀ raw, d.call p = .replied raw → ¬ WellFormed py raw → r.verdict = .error
  confidence : ∀ result, crossValidate py arith d request = some result →
    ∀ pre r post, result.providerResults = pre ++ r :: post →
      ∀ p : Provider, r.provider = p.value →
        ∀ raw, d.call p = .replied raw → ¬ WellFormed py raw →
          result.consensus.avgConfidence ≤ (computeConsensus arith (pre ++ post)).avgConfidence ∧
            result.consensus.confidenceBand.rank ≤
              (computeConsensus arith (pre ++ post)).confidenceBand.rank

theorem Provider.value_injective {p q : Provider} (h : p.value = q.value) : p = q := by
  revert h
  cases p <;> cases q <;> decide

/-- A run is safe exactly when every reply it gets is tame. -/
theorem crossValidate_safe_iff (py : Python) (arith : Arithmetic) (d : Deployment)
    (request : ValidationRequest) :
    Safe py arith d request ↔
      ∀ p ∈ asked d request, ∀ raw, d.call p = .replied raw → Tame py raw := by
  constructor
  · intro hsafe p hp raw hcall
    obtain ⟨r, hr⟩ := Option.isSome_iff_exists.mp (crossValidate_isSome_iff.mp hsafe.returns p hp)
    refine (tame_iff hcall).mpr ⟨r, hr, fun hill => ?_⟩
    obtain ⟨result, hresult⟩ := Option.isSome_iff_exists.mp hsafe.returns
    have hmem : r ∈ result.providerResults := by
      obtain ⟨r', hr', heq⟩ := exists_mem_of_mapM (crossValidate_results hresult).1 hp
      rwa [Option.some.inj (hr.symm.trans heq)]
    exact hsafe.errors result hresult r hmem p (provider_of_validate hr) raw hcall hill
  · intro htame
    have herrors : ∀ result, crossValidate py arith d request = some result →
        ∀ r ∈ result.providerResults, ∀ p : Provider, r.provider = p.value →
          ∀ raw, d.call p = .replied raw → ¬ WellFormed py raw → r.verdict = .error := by
      intro result hresult r hr p hp raw hcall hill
      obtain ⟨hmapM, _⟩ := crossValidate_results hresult
      obtain ⟨q, hq, hvalidate⟩ := exists_of_mem_mapM hmapM hr
      obtain rfl : q = p :=
        Provider.value_injective ((provider_of_validate hvalidate).symm.trans hp)
      obtain ⟨r', hr', hverdict⟩ := (tame_iff hcall).mp (htame q hq raw hcall)
      obtain rfl := Option.some.inj (hvalidate.symm.trans hr')
      exact hverdict hill
    refine ⟨crossValidate_isSome_iff.mpr fun p hp => ?_, herrors, ?_⟩
    · cases hcall : d.call p with
      | replied raw =>
        obtain ⟨r, hr, _⟩ := (tame_iff hcall).mp (htame p hp raw hcall)
        rw [hr]
        rfl
      | importError msg =>
        rw [validateWithProvider, hcall]
        rfl
      | failed msg =>
        rw [validateWithProvider, hcall]
        rfl
    · intro result hresult pre r post hsplit p hp raw hcall hill
      have hr : r ∈ result.providerResults := by
        rw [hsplit]
        exact List.mem_append_right pre List.mem_cons_self
      have hconsensus := (crossValidate_results hresult).2 (List.ne_nil_of_mem hr)
      have herror : r.verdict = .error := herrors result hresult r hr p hp raw hcall hill
      obtain ⟨havg, hband⟩ := @confidence_insert arith pre post r herror
      rw [hconsensus, hsplit]
      exact ⟨havg.le, hband⟩

/-- An interpreter that meets no limit. -/
def plainPython : Python where
  overLimit _ := false
  unpaired _ := false
  readFloat _ := none
  str _ := ""
  unknownVerdict _ := "''"

/-- A critical finding of an Anthropic model, checked by OpenAI, which replies `[]`. -/
def criticalFinding : ValidationRequest where
  primaryModel := "claude-sonnet-4"
  phase := "verify"
  severity := .critical

def openaiReplies (raw : String) : Deployment where
  bundleOverride := none
  available := [.anthropic, .openai]
  additional := []
  call _ := .replied raw.toList

theorem list_reply_raises : ¬ Safe plainPython exact (openaiReplies "[]") criticalFinding := by
  intro h
  have hasked : Provider.openai ∈ asked (openaiReplies "[]") criticalFinding := by decide +kernel
  have hreturns := crossValidate_isSome_iff.mp h.returns .openai hasked
  have hraises : validateWithProvider plainPython (openaiReplies "[]").call .openai = none := rfl
  rw [hraises] at hreturns
  cases hreturns

end SpineFormal.Validation
