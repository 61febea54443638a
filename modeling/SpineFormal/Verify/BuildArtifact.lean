import Mathlib.Data.List.Dedup
import SpineFormal.Base.Decimal
import SpineFormal.Base.Glob
import SpineFormal.Base.TextCodec
import SpineFormal.Base.TextFields

/-!
# The auditor's check of a build artifact

`verify_build_artifact` re-validates the artifact, compares the changed paths
with the scope of the directive, and compares the claimed impact with what
`impact_radius` finds for every changed path. The first gate that fails gives
the verdict.
-/

namespace SpineFormal.Verify

set_option autoImplicit false

structure CodeChange where
  path : String
  linesAdded : Int
  linesRemoved : Int

structure TestRecord where
  durationMs : Int

structure KGImpactNode where
  nodeId : String
  impactDistance : Int

structure BuildCost where
  tokensInput : Int
  tokensOutput : Int
  costUsd : PyDecimal

structure BuildRuntime where
  startedAt : Timestamp
  completedAt : Timestamp
  durationSeconds : Int

inductive BuildRole where
  | engineer
  | operator
  | datawright
  deriving DecidableEq

inductive SealStatus where
  | sealed
  | draft
  | rejected
  deriving DecidableEq

inductive ArtifactStatus where
  | draft
  | approved
  | rejected
  | superseded
  deriving DecidableEq

/-- An artifact as the caller built it: none of the checks has to hold. -/
structure BuildArtifact where
  directiveId : String
  role : BuildRole
  codeChanges : List CodeChange := []
  testsAdded : List TestRecord := []
  testsRun : List TestRecord := []
  kgImpact : List KGImpactNode := []
  cost : BuildCost
  runtime : BuildRuntime
  rationale : String
  status : SealStatus := .draft
  /-- `metadata.approval.decision`, where there is an approval. -/
  approvalDecision : Option ArtifactStatus := none

def emptySentinels : List String := ["", "tbd", "todo", "fixme", "n/a", "na", "?", "..."]

def isEmptyOrTbd (s : List Char) : Bool :=
  emptySentinels.contains (String.ofList ((trimBy pySpace s).map Char.toLower))

def atIndex (field : String) (i : Nat) (part : String) : String :=
  field ++ "." ++ toString i ++ "." ++ part

/-- `Field(ge=0)`. -/
def checkNonneg (loc : String) (n : Int) : List String :=
  if n < 0 then [loc ++ ": Input should be greater than or equal to 0"] else []

def checkAware (loc : String) (t : Timestamp) : List String :=
  if t.offset = none then
    [loc ++ ": Value error, BuildRuntime datetimes must be timezone-aware"]
  else []

def checkTests (field : String) (ts : List TestRecord) : List String :=
  (ts.mapIdx fun i t => checkNonneg (atIndex field i "duration_ms") t.durationMs).flatten

def checkCost (c : BuildCost) : List String :=
  checkNonneg "cost.tokens_input" c.tokensInput ++
    checkNonneg "cost.tokens_output" c.tokensOutput ++
      if c.costUsd.Nonneg then [] else ["cost.cost_usd: Input should be greater than or equal to 0"]

def checkRuntime (r : BuildRuntime) : List String :=
  checkAware "runtime.started_at" r.startedAt ++ checkAware "runtime.completed_at" r.completedAt ++
    checkNonneg "runtime.duration_seconds" r.durationSeconds

/-- The checks of the single fields, each with its own line. -/
def fieldErrors (a : BuildArtifact) : List String :=
  (a.codeChanges.mapIdx fun i c =>
    checkNonneg (atIndex "code_changes" i "lines_added") c.linesAdded ++
      checkNonneg (atIndex "code_changes" i "lines_removed") c.linesRemoved).flatten ++
  checkTests "tests_added" a.testsAdded ++
  checkTests "tests_run" a.testsRun ++
  (a.kgImpact.mapIdx fun i n =>
    checkNonneg (atIndex "kg_impact" i "impact_distance") n.impactDistance).flatten ++
  checkCost a.cost ++
  checkRuntime a.runtime ++
  (if (trimBy whiteSpace a.rationale.toList).length ≤ 500 then []
    else ["rationale: String should have at most 500 characters"]) ++
  (if a.approvalDecision = some .draft then
    ["metadata.approval.decision: Value error, ApprovalRecord.decision cannot be 'draft'"] else [])

/-- Microseconds on the UTC clock. -/
def instant (t : Timestamp) : Int := t.wall.micros - (t.offset.getD 0) * 60000000

/-- `int(delta.total_seconds())`: the quotient is rounded to 53 bits, to even, before it is cut. -/
def totalSeconds (micros : Nat) : Nat :=
  let bits := 52 - Nat.log2 (micros / 1000000)
  let q := micros * 2 ^ bits / 1000000
  let r := micros * 2 ^ bits % 1000000
  let rounded := if 1000000 < 2 * r ∨ (2 * r = 1000000 ∧ q % 2 = 1) then q + 1 else q
  rounded / 2 ^ bits

/-- The checks across fields, in their order; the first that fails is the only one reported. -/
def modelErrors (a : BuildArtifact) : List String :=
  let delta : Int := totalSeconds (instant a.runtime.completedAt - instant a.runtime.startedAt).toNat
  if a.status = .sealed ∧ a.role = .engineer ∧ a.codeChanges ≠ [] ∧ a.kgImpact = [] then
    [": Value error, Engineer BuildArtifact cannot be sealed with empty kg_impact when " ++
      "code_changes present — call MCP impact_radius before sealing"]
  else if a.status = .sealed ∧ isEmptyOrTbd (trimBy whiteSpace a.rationale.toList) then
    [": Value error, Sealed BuildArtifact requires a non-empty, non-TBD rationale"]
  else if ¬ a.cost.costUsd.Nonneg ∨ a.cost.tokensInput < 0 ∨ a.cost.tokensOutput < 0 then
    [": Value error, BuildArtifact.cost fields must be non-negative"]
  else if instant a.runtime.completedAt < instant a.runtime.startedAt then
    [": Value error, BuildRuntime.completed_at must be >= started_at"]
  else if 1 < (delta - a.runtime.durationSeconds).natAbs then
    [": Value error, BuildRuntime.duration_seconds (" ++ toString a.runtime.durationSeconds ++
      ") does not match completed_at-started_at delta (" ++ toString delta ++ ")"]
  else []

/-- `_validate_schema`: the lines of the `ValidationError`, none where the artifact is valid. -/
def validateSchema (a : BuildArtifact) : List String :=
  match fieldErrors a with
  | [] => modelErrors a
  | errors => errors

structure ImpactRadiusInput where
  projectId : String
  target : String
  repo : String
  commitSha : Option String
  target_ne : target ≠ ""

/-- What one call of `impact_radius` does: it raises, or replies with the ids of the impacted nodes.
An error reply has no data; an entry that is no object or has no id counts as `none`. -/
inductive ImpactReply where
  | raised
  | replied (impacted : Option (List (Option String)))

def ImpactReply.nodeIds : ImpactReply → List String
  | .replied (some impacted) => impacted.filterMap id
  | _ => []

structure VerifyBuildArtifactInput where
  buildArtifact : BuildArtifact
  repo : String
  projectId : String
  strict : Bool := true
  directiveScope : Option (List String) := none
  commitSha : Option String := none

inductive Verdict where
  | approved
  | kgImpactMismatch
  | scopeViolation
  | schemaInvalid
  | needsReview
  deriving DecidableEq

def Verdict.text : Verdict → String
  | .approved => "approved"
  | .kgImpactMismatch => "kg_impact_mismatch"
  | .scopeViolation => "scope_violation"
  | .schemaInvalid => "schema_invalid"
  | .needsReview => "needs_review"

structure KGImpactDiff where
  claimedCount : Nat
  actualCount : Nat
  missingFromClaim : List String
  extraInClaim : List String

structure VerifyBuildArtifactOutput where
  verdict : Verdict
  kgImpactDiff : Option KGImpactDiff
  scopeViolations : List String
  schemaErrors : List String
  rationale : String
  remediationDirective : Option String

/-- `_compose_remediation`: what the engineer is told. -/
def composeRemediation (verdict : Verdict) (diff : Option KGImpactDiff)
    (scopeViolations schemaErrors : List String) (directiveId : String) : String :=
  let head := "BuildArtifact for `" ++ directiveId ++ "` rejected by auditor (verdict: " ++
    verdict.text ++ ")."
  let quoted := fun (n : String) => "- `" ++ n ++ "`"
  match verdict, diff with
  | .schemaInvalid, _ =>
    head ++ "\n\nSchema errors:\n" ++
      "\n".intercalate ((schemaErrors.take 10).map ("- " ++ ·)) ++ "\n\nFix and re-seal."
  | .scopeViolation, _ =>
    head ++ "\n\nPaths outside declared scope:\n" ++
      "\n".intercalate ((scopeViolations.take 10).map quoted) ++
      "\n\nRevert or request scope expansion before re-sealing."
  | .kgImpactMismatch, some diff =>
    let missing := if diff.missingFromClaim = [] then [] else
      "Missing kg_impact nodes (auditor found, you didn't list):" ::
        (diff.missingFromClaim.take 15).map quoted
    let extra := if diff.extraInClaim = [] then [] else
      "" :: "Over-claimed nodes (you listed, auditor didn't find):" ::
        (diff.extraInClaim.take 15).map quoted
    "\n".intercalate ([head, ""] ++ missing ++ extra ++
      ["\nRe-run `impact_radius` per changed file before re-sealing."])
  | _, _ => head

/-- `_emit`, without the audit row and the citations. -/
def emit (p : VerifyBuildArtifactInput) (verdict : Verdict) (rationale : String)
    (diff : Option KGImpactDiff) (scopeViolations schemaErrors : List String) :
    VerifyBuildArtifactOutput :=
  { verdict, kgImpactDiff := diff, scopeViolations, schemaErrors, rationale
    remediationDirective :=
      if verdict = .approved then none
      else some (composeRemediation verdict diff scopeViolations schemaErrors
        p.buildArtifact.directiveId) }

section Gates
-- The answer to the k-th call.
variable (impactRadius : Nat → ImpactRadiusInput → ImpactReply)

/-- The call for one path. An empty path is refused where the input is built, inside the `try`. -/
def impactCall (p : VerifyBuildArtifactInput) (k : Nat) (path : String) : ImpactReply :=
  if h : path ≠ "" then impactRadius k ⟨p.projectId, path, p.repo, p.commitSha, h⟩ else .raised

/-- `_compute_actual_impact`: a call that raises is skipped, and so is an empty id. -/
def computeActualImpact (p : VerifyBuildArtifactInput) (paths : List String) : List String :=
  ((paths.mapIdx fun k path =>
    (impactCall impactRadius p k path).nodeIds.filter (· ≠ "")).flatten).dedup

def checkScope (paths : List String) : Option (List String) → List String
  | none => []
  | some scope =>
    if scope = [] then [] else paths.filter fun p => !scope.any fun pat => Glob.fnmatch p pat

def sortedIds (ids : List String) : List String := ids.mergeSort fun a b => decide (a ≤ b)

def claimedIds (a : BuildArtifact) : List String := (a.kgImpact.map (·.nodeId)).dedup

/-- `sorted(actual - claimed)` -/
def missingIds (actual claimed : List String) : List String :=
  sortedIds (actual.filter (· ∉ claimed))

/-- The last gate: the claimed nodes against those the graph has for the changed paths. -/
def impactGate (p : VerifyBuildArtifactInput) (paths : List String) : VerifyBuildArtifactOutput :=
  let claimed := claimedIds p.buildArtifact
  let actual := computeActualImpact impactRadius p paths
  let missing := missingIds actual claimed
  let extra := missingIds claimed actual
  let diff : KGImpactDiff :=
    ⟨claimed.length, actual.length, missing, if p.strict then extra else []⟩
  if missing ≠ [] ∨ (p.strict ∧ extra ≠ []) then
    emit p .kgImpactMismatch ("kg_impact mismatch: " ++ toString missing.length ++ " missing, " ++
      toString extra.length ++ " extra (strict=" ++ (if p.strict then "True" else "False") ++ ").")
      (some diff) [] []
  else
    emit p .approved ("kg_impact matches graph (" ++ toString claimed.length ++ " claimed, " ++
      toString actual.length ++ " actual).") (some diff) [] []

def verifyBuildArtifact (p : VerifyBuildArtifactInput) : VerifyBuildArtifactOutput :=
  let paths := p.buildArtifact.codeChanges.map (·.path)
  let schemaErrors := validateSchema p.buildArtifact
  let scopeViolations := checkScope paths p.directiveScope
  if schemaErrors ≠ [] then
    emit p .schemaInvalid ("BuildArtifact failed re-validation (" ++
      toString schemaErrors.length ++ " errors).") none [] schemaErrors
  else if scopeViolations ≠ [] then
    emit p .scopeViolation (toString scopeViolations.length ++ " path(s) outside declared scope.")
      none scopeViolations []
  else impactGate impactRadius p paths

end Gates

theorem checkScope_eq_nil_iff {paths : List String} {scope : Option (List String)} :
    checkScope paths scope = [] ↔
      ∀ pats ∈ scope, pats ≠ [] → ∀ path ∈ paths, ∃ pat ∈ pats, Glob.fnmatch path pat = true := by
  cases scope with
  | none => simp [checkScope]
  | some pats =>
    by_cases hpats : pats = []
    · simp [checkScope, hpats]
    · simp [checkScope, hpats]

theorem missingIds_eq_nil_iff {actual claimed : List String} :
    missingIds actual claimed = [] ↔ ∀ nodeId ∈ actual, nodeId ∈ claimed := by
  rw [missingIds, sortedIds, ← List.length_eq_zero_iff, List.length_mergeSort,
    List.length_eq_zero_iff, List.filter_eq_nil_iff]
  simp

theorem mem_claimedIds_iff {a : BuildArtifact} {nodeId : String} :
    nodeId ∈ claimedIds a ↔ ∃ n ∈ a.kgImpact, n.nodeId = nodeId := by
  rw [claimedIds, List.mem_dedup, List.mem_map]

section Gates
variable {impactRadius : Nat → ImpactRadiusInput → ImpactReply} {p : VerifyBuildArtifactInput}

/-- The nodes of the calls that replied, as far as they have an id. -/
theorem mem_computeActualImpact_iff {changes : List CodeChange} {nodeId : String} :
    nodeId ∈ computeActualImpact impactRadius p (changes.map (·.path)) ↔
      nodeId ≠ "" ∧ ∃ k c, changes[k]? = some c ∧
        nodeId ∈ (impactCall impactRadius p k c.path).nodeIds := by
  rw [computeActualImpact, List.mem_dedup, List.mem_flatten]
  constructor
  · rintro ⟨ids, hids, hmem⟩
    obtain ⟨k, hk, rfl⟩ := List.mem_mapIdx.mp hids
    rw [List.length_map] at hk
    obtain ⟨hmem, hne⟩ := List.mem_filter.mp hmem
    rw [List.getElem_map] at hmem
    exact ⟨by simpa using hne, k, changes[k], List.getElem?_eq_getElem hk, hmem⟩
  · rintro ⟨hne, k, c, hk, hmem⟩
    obtain ⟨hlt, rfl⟩ := List.getElem?_eq_some_iff.mp hk
    refine ⟨_, List.mem_mapIdx.mpr ⟨k, by simpa using hlt, rfl⟩, ?_⟩
    rw [List.getElem_map]
    exact List.mem_filter.mpr ⟨hmem, by simpa using hne⟩

theorem verdict_impactGate_iff {paths : List String} :
    (impactGate impactRadius p paths).verdict = .approved ↔
      (∀ nodeId ∈ computeActualImpact impactRadius p paths, nodeId ∈ claimedIds p.buildArtifact) ∧
      (p.strict = true → ∀ nodeId ∈ claimedIds p.buildArtifact,
        nodeId ∈ computeActualImpact impactRadius p paths) := by
  rw [← missingIds_eq_nil_iff, ← missingIds_eq_nil_iff, impactGate]
  split
  · rename_i hmismatch
    refine iff_of_false (fun h => nomatch h) ?_
    rintro ⟨hclaimed, hstrict⟩
    rcases hmismatch with hne | ⟨hp, hne⟩
    · exact hne hclaimed
    · exact hne (hstrict hp)
  · rename_i hmatch
    refine iff_of_true rfl ⟨?_, ?_⟩
    · exact not_not.mp fun hne => hmatch (.inl hne)
    · intro hp
      exact not_not.mp fun hne => hmatch (.inr ⟨hp, hne⟩)

theorem verdict_verifyBuildArtifact_iff :
    (verifyBuildArtifact impactRadius p).verdict = .approved ↔
      validateSchema p.buildArtifact = [] ∧
      checkScope (p.buildArtifact.codeChanges.map (·.path)) p.directiveScope = [] ∧
      (impactGate impactRadius p (p.buildArtifact.codeChanges.map (·.path))).verdict =
        .approved := by
  unfold verifyBuildArtifact
  dsimp only
  split
  · rename_i hschema
    exact iff_of_false (fun h => nomatch h) fun h => hschema h.1
  · rename_i hschema
    split
    · rename_i hscope
      exact iff_of_false (fun h => nomatch h) fun h => hscope h.2.1
    · rename_i hscope
      simp [not_not.mp hschema, not_not.mp hscope]

/-- An artifact is approved exactly if it re-validates, stays within a scope that is not empty,
claims every node with an id that a call replied with, and, when strict, claims nothing else.
A call that raised or replied without data asks for nothing. -/
theorem approved_iff (impactRadius : Nat → ImpactRadiusInput → ImpactReply)
    (p : VerifyBuildArtifactInput) :
    (verifyBuildArtifact impactRadius p).verdict = .approved ↔
      validateSchema p.buildArtifact = [] ∧
      (∀ scope ∈ p.directiveScope, scope ≠ [] → ∀ c ∈ p.buildArtifact.codeChanges,
        ∃ pat ∈ scope, Glob.fnmatch c.path pat = true) ∧
      (∀ k c, p.buildArtifact.codeChanges[k]? = some c →
        ∀ nodeId ∈ (impactCall impactRadius p k c.path).nodeIds, nodeId ≠ "" →
          ∃ n ∈ p.buildArtifact.kgImpact, n.nodeId = nodeId) ∧
      (p.strict = true → ∀ n ∈ p.buildArtifact.kgImpact, n.nodeId ≠ "" ∧
        ∃ k c, p.buildArtifact.codeChanges[k]? = some c ∧
          n.nodeId ∈ (impactCall impactRadius p k c.path).nodeIds) := by
  rw [verdict_verifyBuildArtifact_iff, checkScope_eq_nil_iff, verdict_impactGate_iff]
  refine and_congr_right fun _ => and_congr ?_ (and_congr ?_ ?_)
  · simp only [List.forall_mem_map]
  · constructor
    · intro h k c hk nodeId hmem hne
      exact mem_claimedIds_iff.mp (h nodeId (mem_computeActualImpact_iff.mpr ⟨hne, k, c, hk, hmem⟩))
    · intro h nodeId hactual
      obtain ⟨hne, k, c, hk, hmem⟩ := mem_computeActualImpact_iff.mp hactual
      exact mem_claimedIds_iff.mpr (h k c hk nodeId hmem hne)
  · refine forall_congr' fun _ => ?_
    constructor
    · intro h n hn
      exact mem_computeActualImpact_iff.mp (h n.nodeId (mem_claimedIds_iff.mpr ⟨n, hn, rfl⟩))
    · intro h nodeId hclaimed
      obtain ⟨n, hn, rfl⟩ := mem_claimedIds_iff.mp hclaimed
      exact mem_computeActualImpact_iff.mpr (h n hn)

end Gates

/-- Approval as one might expect it: every call has succeeded, and an empty scope allows nothing. -/
def ApprovedOnlyIf (impactRadius : Nat → ImpactRadiusInput → ImpactReply)
    (p : VerifyBuildArtifactInput) : Prop :=
  (verifyBuildArtifact impactRadius p).verdict = .approved →
    validateSchema p.buildArtifact = [] ∧
    (∀ scope ∈ p.directiveScope, ∀ c ∈ p.buildArtifact.codeChanges,
      ∃ pat ∈ scope, Glob.fnmatch c.path pat = true) ∧
    (∀ k c, p.buildArtifact.codeChanges[k]? = some c →
      ∃ impacted, impactCall impactRadius p k c.path = .replied (some impacted)) ∧
    (∀ k c, p.buildArtifact.codeChanges[k]? = some c →
      ∀ nodeId ∈ (impactCall impactRadius p k c.path).nodeIds,
        ∃ n ∈ p.buildArtifact.kgImpact, n.nodeId = nodeId) ∧
    (p.strict = true → ∀ n ∈ p.buildArtifact.kgImpact,
      ∃ k c, p.buildArtifact.codeChanges[k]? = some c ∧
        n.nodeId ∈ (impactCall impactRadius p k c.path).nodeIds)

def noon : Timestamp := ⟨⟨43200000000, by decide⟩, some 0, utcOffset_lt⟩

/-- A draft that changes one file and claims no impact. -/
def draftArtifact : BuildArtifact where
  directiveId := "d1"
  role := .engineer
  codeChanges := [⟨"a.py", 1, 0⟩]
  cost := ⟨0, 0, ⟨false, 0, 0⟩⟩
  runtime := ⟨noon, noon, 0⟩
  rationale := "one line"

def oneChange (scope : Option (List String)) : VerifyBuildArtifactInput where
  buildArtifact := draftArtifact
  repo := "spine"
  projectId := "1"
  directiveScope := scope

theorem approved_oneChange {impactRadius : Nat → ImpactRadiusInput → ImpactReply}
    {scope : Option (List String)} (hscope : checkScope ["a.py"] scope = [])
    (hnone : computeActualImpact impactRadius (oneChange scope) ["a.py"] = []) :
    (verifyBuildArtifact impactRadius (oneChange scope)).verdict = .approved := by
  have hvalid : validateSchema draftArtifact = [] := by decide
  refine verdict_verifyBuildArtifact_iff.mpr ⟨hvalid, hscope, verdict_impactGate_iff.mpr ⟨?_, ?_⟩⟩
  · intro nodeId hmem
    cases (hnone ▸ hmem : nodeId ∈ ([] : List String))
  · intro _ nodeId hmem
    cases (hmem : nodeId ∈ ([] : List String))

/-- Approved after a call that raised, with a scope that lists nothing, and with a node of empty id
left unclaimed. -/
theorem approved_all_the_same :
    ¬ ApprovedOnlyIf (fun _ _ => .raised) (oneChange none) ∧
    ¬ ApprovedOnlyIf (fun _ _ => .replied (some [])) (oneChange (some [])) ∧
    ¬ ApprovedOnlyIf (fun _ _ => .replied (some [some ""])) (oneChange none) := by
  refine ⟨fun h => ?_, fun h => ?_, fun h => ?_⟩
  · obtain ⟨_, himpacted⟩ := (h (approved_oneChange rfl (by decide))).2.2.1 0 _ rfl
    simp [impactCall] at himpacted
  · obtain ⟨_, hpat, -⟩ := (h (approved_oneChange rfl (by decide))).2.1 [] rfl _ (.head _)
    cases hpat
  · obtain ⟨_, hn, -⟩ := (h (approved_oneChange rfl (by decide))).2.2.2.1 0 _ rfl "" (by decide)
    cases hn

end SpineFormal.Verify
