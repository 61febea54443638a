import SpineFormal.Hub.RecoveryDispatch
import SpineFormal.Migration.ImportState

/-!
# The step that a resume request takes

The catalogue of actions that are open to a project, and the choice that a resume request
makes for it. Both read the phase and the metadata, each by conditions of its own.
-/

namespace SpineFormal.Hub.Recovery

open Json
open Migration (truthy pyInt)
set_option autoImplicit false

structure RecoveryActionSpec where
  action : RecoveryAction
  label : String
  description : String

structure Project where
  phase : String
  metadata : Members
  /-- `count_workspace_files`. -/
  onDisk : Nat

def member (ms : Members) (key : String) : Value := (dictGet ms key).getD .null

/-- `str(v or "").strip()` is not empty; only a text can be blank. -/
def spoken : Value → Bool
  | .str s => trimBy pySpace s.toList ≠ []
  | v => truthy v

def entryStatus (status : String) : Value → Bool
  | .obj ms =>
    match member ms "status" with
    | .str s => s = status
    | _ => false
  | _ => false

def entrySpoken : Value → Bool
  | .obj ms => spoken (member ms "feature")
  | _ => false

namespace Project

variable (p : Project)

/-- `bool(md.get(key))`. -/
def has (key : String) : Bool := truthy (member p.metadata key)

def phaseStarts (start : String) : Bool := start.toList.isPrefixOf p.phase.toList

def planning : Bool := p.phaseStarts "plan" || p.phase = "intake"

def coding : Bool := p.phaseStarts "build" || p.phaseStarts "verify" || p.phase = "acceptance"

def testing : Bool := p.phaseStarts "verify" || p.phase = "acceptance" || p.phase = "released"

/-- `code_fix_iteration_count`; no number in a `jsonb` column is infinite. -/
def codeFixIterationCount : Nat := ((pyInt (member p.metadata "code_fix_iteration")).getD 0).toNat

/-- `fix_loop_exhausted`. -/
def fixLoopExhausted : Bool :=
  p.has "code_review_blocked" && decide (maxCodeFixIterations ≤ p.codeFixIterationCount)

/-- Whether `_pending_feature_request` finds a feature. -/
def pendingFeatureRequest : Bool :=
  match member p.metadata "feature_requests" with
  | .arr requests =>
    requests.any (fun e => entryStatus "requested" e && entrySpoken e) ||
      !requests.any (entryStatus "in_progress") &&
        spoken (member p.metadata "latest_feature_request")
  | _ => spoken (member p.metadata "latest_feature_request")

/-- `md.get("devops_install_ok") is not False`. -/
def installNotFalse : Bool :=
  match member p.metadata "devops_install_ok" with
  | .bool false => false
  | _ => true

def codeWritten : Bool := p.has "code_intro_md" || p.has "code_files"

def canReset : Bool :=
  p.fixLoopExhausted || p.has "code_review_blocked" && decide (0 < p.codeFixIterationCount)

/-! ## The catalogue -/

def offer (enabled : Bool) (action : RecoveryAction) (label description : String) :
    List RecoveryActionSpec :=
  if enabled then [⟨action, label, description⟩] else []

def during (phase : Bool) (specs : List RecoveryActionSpec) : List RecoveryActionSpec :=
  if phase then specs else []

def planSpecs : List RecoveryActionSpec :=
  offer (p.has "prd_md") .retryPlanner "Regenerate roadmap"
    "Regenerate the delivery roadmap from the approved product requirements." ++
  offer (p.has "roadmap_md") .retryArchitect "Regenerate technical design"
    "Regenerate the technical requirements document from the approved roadmap." ++
  offer (p.has "trd_md") .retryConductor "Regenerate sprint plan"
    "Regenerate the sprint plan from the approved technical design."

def iterNote : String :=
  if p.has "code_review_blocked" && !p.fixLoopExhausted then
    " (attempt " ++ String.ofList (Numerals.decimal (p.codeFixIterationCount + 1)) ++ " of " ++
      String.ofList (Numerals.decimal maxCodeFixIterations) ++ ")"
  else ""

def remediateLabel : String :=
  if p.fixLoopExhausted then "Fix security findings (auto re-review)"
  else "Apply security remediation"

def remediateDescription : String :=
  if p.fixLoopExhausted then
    "Run targeted engineer remediation from the latest security findings, " ++
      "then automatically re-run security review — no full regen."
  else
    "Send the engineer role the latest security findings" ++ p.iterNote ++
      ". Security review re-runs automatically after remediation."

/-- What the coding phases and the operate phase offer once there is code. -/
def reviewSpecs (review devops : String) : List RecoveryActionSpec :=
  offer p.codeWritten .retryCodeReview "Run security review" review ++
  offer ((p.has "code_review_blocked" || p.has "code_review_md") && p.codeWritten)
    .retryEngineerRemediate p.remediateLabel p.remediateDescription ++
  offer p.canReset .resetFixLoop "Reset fix loop"
    ("Clear the remediation attempt counter and security block flag so " ++
      "automated fix passes can run again from zero.") ++
  offer (p.has "code_review_md" && !p.has "code_review_blocked") .retryDevops
    "Run environment setup" devops

def codeSpecs : List RecoveryActionSpec :=
  offer (p.has "sprint_plan_md") .retryEngineer "Regenerate application code"
    "Generate application code from the approved sprint plan (fresh pass)." ++
  p.reviewSpecs "Run the security engineer review against the current workspace."
    "Install dependencies and run smoke validation in the project workspace."

def operateSpecs : List RecoveryActionSpec :=
  offer (p.pendingFeatureRequest && !p.has "recovery_dispatch_in_flight") .retryFeature
    "Implement feature request"
    ("Send the engineer role the latest founder feature request " ++
      "and run review → install → redeploy.") ++
  p.reviewSpecs "Run security review on the latest feature code changes."
    "Install dependencies and smoke-test after feature changes."

def startable : Bool :=
  p.phase = "released" && p.has "deploy_result" && !p.has "operate_started_at"

def phaseSpecs : List RecoveryActionSpec :=
  during p.planning p.planSpecs ++
  during p.coding p.codeSpecs ++
  during p.testing (offer p.installNotFalse .retryQa "Generate test plan"
    "Regenerate the test plan after environment setup completes.") ++
  offer p.startable .retryOperate "Start operate monitoring"
    "Run the operate runner (released → operate) after deploy is acknowledged." ++
  during (p.phase = "operate") p.operateSpecs

/-- The loop over `seen`. -/
def firstOfEach : List RecoveryAction → List RecoveryActionSpec → List RecoveryActionSpec
  | _, [] => []
  | seen, spec :: specs =>
    if spec.action ∈ seen then firstOfEach seen specs
    else spec :: firstOfEach (spec.action :: seen) specs

/-- `_action_specs`. -/
def actionSpecs : List RecoveryActionSpec :=
  firstOfEach [] (p.phaseSpecs ++ offer (!p.phaseSpecs.isEmpty) .resume "Resume pipeline"
    "Select and run the most appropriate next step for the current phase.")

def offered : List RecoveryAction := p.actionSpecs.map RecoveryActionSpec.action

/-! ## The choice -/

/-- The code is on record or due, and the workspace holds no file. -/
def codeLost : Bool := p.onDisk = 0 && (p.has "code_files" || p.phaseStarts "build")

def afterBlockedReview : Option RecoveryAction :=
  if p.fixLoopExhausted then if p.codeWritten then some .retryCodeReview else none
  else some .retryEngineerRemediate

def preferred : List RecoveryAction :=
  [.retryFeature, .retryOperate, .retryEngineerRemediate, .retryEngineer, .retryCodeReview,
    .retryDevops, .retryQa, .retryConductor, .retryArchitect, .retryPlanner]

/-- The first preferred action of the catalogue, or else its first action. -/
def pickOffered : Option RecoveryAction :=
  (preferred.find? fun a => p.offered.contains a).or p.offered.head?

/-- The part of `_pick_resume_action` after the checks on lost code and a blocked review. -/
def pickForPhase : Option RecoveryAction :=
  if p.phaseStarts "build" && p.has "code_intro_md" && !p.has "code_review_md" then
    some .retryCodeReview
  else if p.phaseStarts "build" && p.has "code_review_md" && !p.has "devops_install_ok" then
    some .retryDevops
  else if p.phaseStarts "build" && p.has "sprint_plan_md" && !p.has "code_intro_md" then
    some .retryEngineer
  else if p.phaseStarts "verify" && !p.has "qa_md" then some .retryQa
  else if p.startable then some .retryOperate
  else if p.phase = "operate" && p.pendingFeatureRequest then some .retryFeature
  else if p.planning && p.has "trd_md" && !p.has "sprint_plan_md" then some .retryConductor
  else if p.planning && p.has "roadmap_md" && !p.has "trd_md" then some .retryArchitect
  else if p.planning && p.has "prd_md" && !p.has "roadmap_md" then some .retryPlanner
  else p.pickOffered

/-- `_pick_resume_action`. -/
def pickResumeAction : Option RecoveryAction :=
  if p.codeLost && p.has "code_review_blocked" && p.has "code_review_md" then p.afterBlockedReview
  else if p.codeLost && p.has "sprint_plan_md" then some .retryEngineer
  else if p.has "code_review_blocked" then p.afterBlockedReview
  else p.pickForPhase

/-! ## When the catalogue offers an action -/

/-- The condition under which an action is offered. -/
def Enabled : RecoveryAction → Prop
  | .retryPlanner => p.planning ∧ p.has "prd_md"
  | .retryArchitect => p.planning ∧ p.has "roadmap_md"
  | .retryConductor => p.planning ∧ p.has "trd_md"
  | .retryEngineer => p.coding ∧ p.has "sprint_plan_md"
  | .retryEngineerRemediate => (p.coding ∨ p.phase = "operate") ∧
      (p.has "code_review_blocked" ∨ p.has "code_review_md") ∧ p.codeWritten
  | .retryCodeReview => (p.coding ∨ p.phase = "operate") ∧ p.codeWritten
  | .retryDevops => (p.coding ∨ p.phase = "operate") ∧
      p.has "code_review_md" ∧ ¬ p.has "code_review_blocked"
  | .retryQa => p.testing ∧ p.installNotFalse
  | .retryOperate => p.startable
  | .retryFeature => p.phase = "operate" ∧ p.pendingFeatureRequest ∧
      ¬ p.has "recovery_dispatch_in_flight"
  | .resetFixLoop => (p.coding ∨ p.phase = "operate") ∧ p.canReset
  | .resume => p.phaseSpecs ≠ []

theorem mem_offer {enabled : Bool} {a action : RecoveryAction} {label description : String} :
    a ∈ (offer enabled action label description).map RecoveryActionSpec.action ↔
      enabled = true ∧ a = action := by
  cases enabled <;> simp [offer]

theorem mem_during {phase : Bool} {specs : List RecoveryActionSpec} {a : RecoveryAction} :
    a ∈ (during phase specs).map RecoveryActionSpec.action ↔
      phase = true ∧ a ∈ specs.map RecoveryActionSpec.action := by
  cases phase <;> simp [during]

theorem mem_firstOfEach {a : RecoveryAction} (seen : List RecoveryAction)
    (specs : List RecoveryActionSpec) :
    a ∈ (firstOfEach seen specs).map RecoveryActionSpec.action ↔
      a ∉ seen ∧ a ∈ specs.map RecoveryActionSpec.action := by
  induction specs generalizing seen with
  | nil => simp [firstOfEach]
  | cons spec specs ih =>
    rw [firstOfEach, List.map_cons, List.mem_cons]
    by_cases hseen : spec.action ∈ seen
    · rw [if_pos hseen, ih]
      constructor
      · rintro ⟨ha, hmem⟩
        exact ⟨ha, Or.inr hmem⟩
      · rintro ⟨ha, rfl | hmem⟩
        · exact absurd hseen ha
        · exact ⟨ha, hmem⟩
    · rw [if_neg hseen, List.map_cons, List.mem_cons, ih, List.mem_cons, not_or]
      by_cases ha : a = spec.action
      · simp [ha, hseen]
      · simp [ha]

theorem mem_reviewSpecs {review devops : String} {a : RecoveryAction} :
    a ∈ (p.reviewSpecs review devops).map RecoveryActionSpec.action ↔
      (p.codeWritten ∧ a = .retryCodeReview) ∨
      (((p.has "code_review_blocked" ∨ p.has "code_review_md") ∧ p.codeWritten) ∧
        a = .retryEngineerRemediate) ∨
      (p.canReset ∧ a = .resetFixLoop) ∨
      ((p.has "code_review_md" ∧ ¬ p.has "code_review_blocked") ∧ a = .retryDevops) := by
  simp only [reviewSpecs, List.map_append, List.mem_append, mem_offer, or_assoc, Bool.and_eq_true,
    Bool.or_eq_true, Bool.not_eq_true', Bool.not_eq_true]

theorem mem_phaseSpecs {a : RecoveryAction} :
    a ∈ p.phaseSpecs.map RecoveryActionSpec.action ↔ a ≠ .resume ∧ p.Enabled a := by
  simp only [phaseSpecs, planSpecs, codeSpecs, operateSpecs, List.map_append, List.mem_append,
    mem_during, mem_offer, mem_reviewSpecs, Bool.and_eq_true, Bool.not_eq_true', decide_eq_true_iff]
  cases a <;> simp [Enabled, or_and_right]

theorem mem_offered {a : RecoveryAction} : a ∈ p.offered ↔ p.Enabled a := by
  rw [offered, actionSpecs, mem_firstOfEach, List.map_append, List.mem_append, mem_phaseSpecs,
    mem_offer]
  by_cases ha : a = .resume
  · simp [ha, Enabled]
  · simp [ha]

/-! ## When the choice is in the catalogue -/

theorem phaseStarts_iff (start : String) :
    p.phaseStarts start = true ↔ start.toList <+: p.phase.toList :=
  List.isPrefixOf_iff_prefix

/-- A phase begins with one letter. -/
theorem not_phaseStarts {start : String} (other : String) (hstart : p.phaseStarts start = true)
    (hne : other.toList.head? ≠ start.toList.head?) (hother : other.toList ≠ [])
    (hnil : start.toList ≠ []) : p.phaseStarts other = false := by
  rw [Bool.eq_false_iff]
  intro h
  obtain ⟨rest, hrest⟩ := (p.phaseStarts_iff start).mp hstart
  obtain ⟨rest', hrest'⟩ := (p.phaseStarts_iff other).mp h
  have hhead := congrArg List.head? (hrest'.trans hrest.symm)
  rw [List.head?_append_of_ne_nil _ hother, List.head?_append_of_ne_nil _ hnil] at hhead
  exact hne hhead

def sendsEngineer : Bool :=
  p.codeLost && !(p.has "code_review_blocked" && p.has "code_review_md") && p.has "sprint_plan_md"

/-- The choices that the catalogue does not look at in the same way. -/
structure Covered : Prop where
  engineer : p.sendsEngineer → p.coding
  blocked : ¬ p.sendsEngineer → p.has "code_review_blocked" →
    p.codeWritten ∧ (p.coding ∨ p.phase = "operate") ∨ ¬ p.codeWritten ∧ p.fixLoopExhausted
  tested : ¬ p.sendsEngineer → ¬ p.has "code_review_blocked" → p.phaseStarts "verify" →
    ¬ p.has "qa_md" → p.installNotFalse
  feature : ¬ p.sendsEngineer → ¬ p.has "code_review_blocked" → p.phase = "operate" →
    p.pendingFeatureRequest → ¬ p.has "recovery_dispatch_in_flight"

theorem pick_of_sendsEngineer (h : p.sendsEngineer = true) :
    p.pickResumeAction = some .retryEngineer := by
  simp only [sendsEngineer, Bool.and_eq_true, Bool.not_eq_true', Bool.and_eq_false_iff] at h
  obtain ⟨⟨hlost, hreview⟩, hsprint⟩ := h
  rw [pickResumeAction, if_neg, if_pos]
  · simp [hlost, hsprint]
  · rcases hreview with hb | hr
    · simp [hb]
    · simp [hr]

theorem pick_of_blocked (h : ¬ p.sendsEngineer = true) (hb : p.has "code_review_blocked" = true) :
    p.pickResumeAction = p.afterBlockedReview := by
  rw [pickResumeAction]
  by_cases hlost : (p.codeLost && p.has "code_review_blocked" && p.has "code_review_md") = true
  · rw [if_pos hlost]
  · have hsprint : ¬ (p.codeLost && p.has "sprint_plan_md") = true := by
      intro hs
      apply h
      simp only [hb, Bool.and_eq_true, Bool.and_true] at hlost hs
      simp only [not_and, Bool.not_eq_true] at hlost
      simp [sendsEngineer, hb, hs.1, hs.2, hlost hs.1]
    rw [if_neg hlost, if_neg hsprint, if_pos hb]

theorem pick_of_not_blocked (h : ¬ p.sendsEngineer = true)
    (hb : ¬ p.has "code_review_blocked" = true) : p.pickResumeAction = p.pickForPhase := by
  have hsprint : ¬ (p.codeLost && p.has "sprint_plan_md") = true := by
    intro hs
    rw [Bool.and_eq_true] at hs
    apply h
    simp [sendsEngineer, hb, hs.1, hs.2]
  rw [pickResumeAction, if_neg (by simp [hb]), if_neg hsprint, if_neg hb]

/-- Whatever is taken off the catalogue is in it. -/
theorem pickOffered_enabled {a : RecoveryAction} (h : p.pickOffered = some a) : p.Enabled a := by
  rw [← mem_offered]
  rcases Option.or_eq_some_iff.mp h with hfind | ⟨-, hhead⟩
  · have hcontains := List.find?_some hfind
    simpa using hcontains
  · exact List.mem_of_head? hhead

theorem pickForPhase_enabled (hcovered : p.Covered) (h : ¬ p.sendsEngineer = true)
    (hb : ¬ p.has "code_review_blocked" = true) {a : RecoveryAction}
    (ha : p.pickForPhase = some a) : p.Enabled a := by
  rw [pickForPhase] at ha
  have hcoding : p.phaseStarts "build" = true → p.coding = true := by
    intro hbuild
    simp [coding, hbuild]
  split_ifs at ha with hintro hdevops hsprint hverify hstart hfeature htrd hroadmap hprd
  · obtain rfl := Option.some.inj ha
    simp only [Bool.and_eq_true] at hintro
    exact ⟨Or.inl (hcoding hintro.1.1), by simp [codeWritten, hintro.1.2]⟩
  · obtain rfl := Option.some.inj ha
    simp only [Bool.and_eq_true] at hdevops
    exact ⟨Or.inl (hcoding hdevops.1.1), hdevops.1.2, hb⟩
  · obtain rfl := Option.some.inj ha
    simp only [Bool.and_eq_true] at hsprint
    exact ⟨hcoding hsprint.1.1, hsprint.1.2⟩
  · obtain rfl := Option.some.inj ha
    simp only [Bool.and_eq_true, Bool.not_eq_true'] at hverify
    refine ⟨by simp [testing, hverify.1], hcovered.tested h hb hverify.1 (by simp [hverify.2])⟩
  · obtain rfl := Option.some.inj ha
    exact hstart
  · obtain rfl := Option.some.inj ha
    simp only [Bool.and_eq_true, decide_eq_true_iff] at hfeature
    exact ⟨hfeature.1, hfeature.2, hcovered.feature h hb hfeature.1 hfeature.2⟩
  · obtain rfl := Option.some.inj ha
    simp only [Bool.and_eq_true] at htrd
    exact ⟨htrd.1.1, htrd.1.2⟩
  · obtain rfl := Option.some.inj ha
    simp only [Bool.and_eq_true] at hroadmap
    exact ⟨hroadmap.1.1, hroadmap.1.2⟩
  · obtain rfl := Option.some.inj ha
    simp only [Bool.and_eq_true] at hprd
    exact ⟨hprd.1.1, hprd.1.2⟩
  · exact p.pickOffered_enabled ha

theorem pick_enabled (hcovered : p.Covered) {a : RecoveryAction}
    (ha : p.pickResumeAction = some a) : p.Enabled a := by
  by_cases h : p.sendsEngineer = true
  · rw [p.pick_of_sendsEngineer h] at ha
    obtain rfl := Option.some.inj ha
    have hsprint : p.has "sprint_plan_md" = true := by
      simp only [sendsEngineer, Bool.and_eq_true] at h
      exact h.2
    exact ⟨hcovered.engineer h, hsprint⟩
  by_cases hb : p.has "code_review_blocked" = true
  · rw [p.pick_of_blocked h hb, afterBlockedReview] at ha
    rcases hcovered.blocked h hb with ⟨hwritten, hphase⟩ | ⟨hwritten, hexhausted⟩
    · split_ifs at ha
      · obtain rfl := Option.some.inj ha
        exact ⟨hphase, hwritten⟩
      · obtain rfl := Option.some.inj ha
        exact ⟨hphase, Or.inl hb, hwritten⟩
    · rw [if_pos hexhausted, if_neg hwritten] at ha
      cases ha
  · rw [p.pick_of_not_blocked h hb] at ha
    exact p.pickForPhase_enabled hcovered h hb ha

theorem covered_of_pick_enabled
    (hpick : ∀ a, p.pickResumeAction = some a → p.Enabled a) : p.Covered := by
  constructor
  · intro h
    exact (hpick _ (p.pick_of_sendsEngineer h)).1
  · intro h hb
    rw [p.pick_of_blocked h hb, afterBlockedReview] at hpick
    by_cases hexhausted : p.fixLoopExhausted = true
    · by_cases hwritten : p.codeWritten = true
      · rw [if_pos hexhausted, if_pos hwritten] at hpick
        exact Or.inl ⟨hwritten, (hpick _ rfl).1⟩
      · exact Or.inr ⟨hwritten, hexhausted⟩
    · rw [if_neg hexhausted] at hpick
      exact Or.inl ⟨(hpick _ rfl).2.2, (hpick _ rfl).1⟩
  · intro h hb hverify hqa
    have hbuild := p.not_phaseStarts "build" hverify (by decide) (by decide) (by decide)
    rw [p.pick_of_not_blocked h hb, pickForPhase] at hpick
    simp only [hbuild, hverify, hqa, Bool.false_and, Bool.not_false, Bool.and_true] at hpick
    exact (hpick .retryQa rfl).2
  · intro h hb hoperate hpending
    rw [p.pick_of_not_blocked h hb, pickForPhase] at hpick
    have hbuild : p.phaseStarts "build" = false := by
      rw [phaseStarts, hoperate]
      decide
    have hverify : p.phaseStarts "verify" = false := by
      rw [phaseStarts, hoperate]
      decide
    have hstart : p.startable = false := by simp [startable, hoperate]
    simp only [hbuild, hverify, hstart, hoperate, hpending, Bool.false_and] at hpick
    exact (hpick .retryFeature rfl).2.2

/-! ## The request -/

/-- The part of the metadata that a request looks at; `readFlag` reads a flag that is set. -/
def summary (readFlag : Value → InFlight) : Metadata where
  inFlight :=
    if p.has "recovery_dispatch_in_flight" then
      some (readFlag (member p.metadata "recovery_dispatch_in_flight"))
    else none
  codeReviewBlocked := p.has "code_review_blocked"
  codeReviewMd := spoken (member p.metadata "code_review_md")
  codeFixIteration := p.codeFixIterationCount

/-- `{**md, "recovery_dispatch_in_flight": None}`. -/
def reaped : Project :=
  { p with metadata := p.metadata ++ [("recovery_dispatch_in_flight", .null)] }

/-- The project as a request holds it: without the flag once a stale one is reaped. -/
def held : DispatchStage → Project
  | .deciding _ md | .counting _ md =>
    if p.has "recovery_dispatch_in_flight" && md.inFlight.isNone then p.reaped else p
  | _ => p

/-- A step of the request with the clock at `now`; nothing else writes to the project. -/
def resumeStep (actor : String) (autoLoop : Bool) (stage : DispatchStage) (now : Nat) (ok : Bool)
    (pending : Nat) : DispatchStage :=
  (runDispatch .resume actor autoLoop { now := now } stage
    { ok := ok, picked := p.pickResumeAction, allowed := (p.held stage).offered
      pending := pending }).2

/-- The request from the read of the project on; a step sees the clock, whether what it awaits
goes through, and the number of pending cards. -/
def resumeRun (readFlag : Value → InFlight) (actor : String) (autoLoop : Bool)
    (steps : List (Nat × Bool × Nat)) : DispatchStage :=
  steps.foldl (fun stage s => p.resumeStep actor autoLoop stage s.1 s.2.1 s.2.2)
    (.loaded (p.summary readFlag))

theorem member_reaped {key : String} (h : key ≠ "recovery_dispatch_in_flight") :
    member p.reaped.metadata key = member p.metadata key := by
  have hnone : dictGet [("recovery_dispatch_in_flight", Value.null)] key = none := by
    simp [dictGet, lookup, h.symm]
  rw [member, member, reaped, dictGet_append, hnone, Option.none_or]

theorem has_reaped {key : String} (h : key ≠ "recovery_dispatch_in_flight") :
    p.reaped.has key = p.has key := by
  rw [has, has, p.member_reaped h]

/-- Withdrawing a flag takes no action away. -/
theorem enabled_reaped {a : RecoveryAction} (h : p.Enabled a) : p.reaped.Enabled a := by
  have hhas : ∀ key, key ≠ "recovery_dispatch_in_flight" → p.reaped.has key = p.has key :=
    fun _ hkey => p.has_reaped hkey
  have hcount : p.reaped.codeFixIterationCount = p.codeFixIterationCount := by
    rw [codeFixIterationCount, codeFixIterationCount, p.member_reaped (by decide)]
  have hinstall : p.reaped.installNotFalse = p.installNotFalse := by
    rw [installNotFalse, installNotFalse, p.member_reaped (by decide)]
  have hpending : p.reaped.pendingFeatureRequest = p.pendingFeatureRequest := by
    rw [pendingFeatureRequest, pendingFeatureRequest, p.member_reaped (by decide),
      p.member_reaped (by decide)]
  have hflag : p.reaped.has "recovery_dispatch_in_flight" = false := by
    rw [has, member, reaped, dictGet_append]
    simp [dictGet, lookup, truthy]
  have hopen : ∀ b, b ≠ .resume → p.Enabled b → p.reaped.Enabled b := by
    intro b hb hb'
    have hwritten : p.reaped.codeWritten = p.codeWritten := by
      rw [codeWritten, codeWritten, hhas _ (by decide), hhas _ (by decide)]
    have hexhausted : p.reaped.fixLoopExhausted = p.fixLoopExhausted := by
      rw [fixLoopExhausted, fixLoopExhausted, hhas _ (by decide), hcount]
    cases b with
    | resume => exact absurd rfl hb
    | retryPlanner | retryArchitect | retryConductor | retryEngineer =>
      exact ⟨hb'.1, (hhas _ (by decide)).trans hb'.2⟩
    | retryEngineerRemediate =>
      rw [Enabled, hwritten, hhas _ (by decide), hhas _ (by decide)]
      exact hb'
    | retryCodeReview => exact ⟨hb'.1, hwritten.trans hb'.2⟩
    | retryDevops =>
      rw [Enabled, hhas _ (by decide), hhas _ (by decide)]
      exact hb'
    | retryQa => exact ⟨hb'.1, hinstall.trans hb'.2⟩
    | retryOperate =>
      rw [Enabled, startable, hhas _ (by decide), hhas _ (by decide)]
      exact hb'
    | retryFeature => exact ⟨hb'.1, hpending.trans hb'.2.1, by simp [hflag]⟩
    | resetFixLoop =>
      rw [Enabled, canReset, hexhausted, hhas _ (by decide), hcount]
      exact hb'
  by_cases ha : a = .resume
  · obtain rfl := ha
    obtain ⟨spec, hspec⟩ := List.exists_mem_of_ne_nil _ h
    obtain ⟨hne, hspec⟩ := p.mem_phaseSpecs.mp (List.mem_map_of_mem hspec)
    have hmem := p.reaped.mem_phaseSpecs.mpr ⟨hne, hopen _ hne hspec⟩
    intro hnil
    rw [hnil] at hmem
    cases hmem
  · exact hopen a ha h

theorem enabled_held {a : RecoveryAction} (h : p.Enabled a) (stage : DispatchStage) :
    a ∈ (p.held stage).offered := by
  rw [mem_offered, held.eq_def]
  split
  · split_ifs
    · exact p.enabled_reaped h
    · exact h
  · split_ifs
    · exact p.enabled_reaped h
    · exact h
  · exact h

/-- What has been read of the metadata is still so, and what was resolved is open. -/
def Sound : DispatchStage → Prop
  | .loaded md => md.codeReviewBlocked = p.has "code_review_blocked" ∧
      md.codeFixIteration = p.codeFixIterationCount
  | .reaping resolved md | .deciding resolved md => p.Enabled resolved ∧
      md.codeReviewBlocked = p.has "code_review_blocked" ∧
      md.codeFixIteration = p.codeFixIterationCount
  | .counting resolved _ => p.Enabled resolved
  | .finished reply => reply ≠ .actionNotAllowed
  | .loading => False
  | _ => True

theorem sound_finished {reply : DispatchReply} (h : reply ≠ .actionNotAllowed) :
    p.Sound (.finished reply) := h

theorem startIfAllowed_sound {actor : String} {now : Nat} {resolved : RecoveryAction}
    {md : Metadata} {a : Answer} (h : resolved ∈ a.allowed) :
    p.Sound (startIfAllowed actor now resolved md a) := by
  rw [startIfAllowed, if_pos h]
  split
  · trivial
  · exact p.sound_finished (by simp)

theorem decideDispatch_sound {actor : String} {autoLoop : Bool} {now : Nat}
    {resolved : RecoveryAction} {md : Metadata} {a : Answer} (henabled : p.Enabled resolved)
    (hallowed : resolved ∈ a.allowed) (hb : md.codeReviewBlocked = p.has "code_review_blocked")
    (hn : md.codeFixIteration = p.codeFixIterationCount) :
    p.Sound (decideDispatch actor autoLoop now resolved md a) := by
  have hexhausted : md.fixLoopExhausted = p.fixLoopExhausted := by
    rw [Metadata.fixLoopExhausted, fixLoopExhausted, hb, hn]
  unfold decideDispatch
  split
  · split_ifs <;> exact p.sound_finished (by simp)
  · split
    · have hreset : md.fixLoopExhausted = true ∨
          (md.codeReviewBlocked = true ∧ 0 < md.codeFixIteration) := by
        have hcan := henabled.2
        rw [canReset, Bool.or_eq_true, Bool.and_eq_true, decide_eq_true_iff] at hcan
        rwa [hexhausted, hb, hn]
      rw [if_pos hreset]
      trivial
    · split_ifs
      · exact p.sound_finished (by simp)
      · exact p.startIfAllowed_sound hallowed
      · exact p.startIfAllowed_sound hallowed
      · exact henabled
    · exact p.startIfAllowed_sound hallowed

theorem runDispatch_sound (hpick : ∀ a, p.pickResumeAction = some a → p.Enabled a)
    (actor : String) (autoLoop : Bool) (st : Store) {stage : DispatchStage} {a : Answer}
    (hpicked : a.picked = p.pickResumeAction)
    (hallowed : ∀ resolved, p.Enabled resolved → resolved ∈ a.allowed) (h : p.Sound stage) :
    p.Sound (runDispatch .resume actor autoLoop st stage a).2 := by
  have hraised : p.Sound (.finished .raised) := p.sound_finished (by simp)
  cases stage with
  | loading =>
    rw [runDispatch]
    split_ifs
    · exact h.elim
    · exact p.sound_finished (by simp)
    · exact hraised
  | loaded md =>
    rw [runDispatch, if_pos rfl, hpicked]
    cases hresolved : p.pickResumeAction with
    | none => exact p.sound_finished (by simp)
    | some resolved =>
      have henabled := hpick resolved hresolved
      dsimp only
      split_ifs
      · exact ⟨henabled, h⟩
      · exact p.decideDispatch_sound henabled (hallowed resolved henabled) h.1 h.2
  | reaping resolved md =>
    rw [runDispatch]
    split_ifs
    · exact h
    · exact hraised
  | deciding resolved md =>
    exact p.decideDispatch_sound h.1 (hallowed resolved h.1) h.2.1 h.2.2
  | counting resolved md =>
    rw [runDispatch]
    split_ifs
    · exact p.sound_finished (by simp)
    · exact p.startIfAllowed_sound (hallowed resolved h)
    · exact hraised
  | setting flag md =>
    rw [runDispatch]
    split_ifs
    · trivial
    · exact hraised
  | resetting =>
    rw [runDispatch]
    split_ifs
    · exact p.sound_finished (by simp)
    · exact hraised
  | spawning flag md =>
    rw [runDispatch]
    split_ifs
    · trivial
    · exact hraised
  | running =>
    rw [runDispatch]
    split_ifs <;> exact p.sound_finished (by simp)
  | finished reply => exact h

theorem resumeStep_sound (hpick : ∀ a, p.pickResumeAction = some a → p.Enabled a)
    (actor : String) (autoLoop : Bool) {stage : DispatchStage} (now : Nat) (ok : Bool)
    (pending : Nat) (h : p.Sound stage) :
    p.Sound (p.resumeStep actor autoLoop stage now ok pending) := by
  apply p.runDispatch_sound hpick actor autoLoop _ rfl _ h
  exact fun resolved henabled => p.enabled_held henabled stage

/-- A request whose choice is open is not refused as unavailable, whatever it meets. -/
theorem resumeRun_sound (hpick : ∀ a, p.pickResumeAction = some a → p.Enabled a)
    (readFlag : Value → InFlight) (actor : String) (autoLoop : Bool)
    (steps : List (Nat × Bool × Nat)) : p.Sound (p.resumeRun readFlag actor autoLoop steps) := by
  have hrun : ∀ (steps : List (Nat × Bool × Nat)) (stage : DispatchStage), p.Sound stage →
      p.Sound (steps.foldl
        (fun stage s => p.resumeStep actor autoLoop stage s.1 s.2.1 s.2.2) stage) := by
    intro steps
    induction steps with
    | nil => exact fun _ h => h
    | cons s steps ih =>
      intro stage h
      exact ih _ (p.resumeStep_sound hpick actor autoLoop s.1 s.2.1 s.2.2 h)
  exact hrun steps _ ⟨rfl, rfl⟩

end Project

/-- The choice of a resume request is in the catalogue, and the request is not refused as
unavailable, exactly for the projects that the two trees look at in the same way. -/
theorem resume_offered_iff (p : Project) :
    ((∀ a, p.pickResumeAction = some a → a ∈ p.offered) ∧
      ∀ readFlag actor autoLoop steps,
        p.resumeRun readFlag actor autoLoop steps ≠ .finished .actionNotAllowed) ↔ p.Covered := by
  simp only [Project.mem_offered]
  constructor
  · rintro ⟨hpick, -⟩
    exact p.covered_of_pick_enabled hpick
  · intro hcovered
    have hpick : ∀ a, p.pickResumeAction = some a → p.Enabled a := fun _ => p.pick_enabled hcovered
    refine ⟨hpick, ?_⟩
    intro readFlag actor autoLoop steps hrefused
    have hsound := p.resumeRun_sound hpick readFlag actor autoLoop steps
    rw [hrefused] at hsound
    exact hsound rfl

/-- The install failed while the tests are not planned yet. -/
def failedInstall : Project where
  phase := "verify_in_progress"
  metadata := [("code_intro_md", .str "# Code"), ("code_review_md", .str "PASS"),
    ("devops_install_ok", .bool false)]
  onDisk := 12

theorem failedInstall_refused :
    ¬ ((∀ a, failedInstall.pickResumeAction = some a → a ∈ failedInstall.offered) ∧
      ∀ readFlag actor autoLoop steps,
        failedInstall.resumeRun readFlag actor autoLoop steps ≠ .finished .actionNotAllowed) ∧
    failedInstall.pickResumeAction = some .retryQa ∧
    failedInstall.offered = [.retryCodeReview, .retryEngineerRemediate, .retryDevops, .resume] ∧
    ∀ readFlag actor autoLoop,
      failedInstall.resumeRun readFlag actor autoLoop [(0, true, 0)] =
        .finished .actionNotAllowed := by
  have hrun : ∀ readFlag actor autoLoop,
      failedInstall.resumeRun readFlag actor autoLoop [(0, true, 0)] =
        .finished .actionNotAllowed := by
    intro readFlag actor autoLoop
    have hflag : failedInstall.has "recovery_dispatch_in_flight" = false := by decide +kernel
    have hpick : failedInstall.pickResumeAction = some .retryQa := by decide +kernel
    have hqa : RecoveryAction.retryQa ∉ failedInstall.offered := by decide +kernel
    simp [Project.resumeRun, Project.resumeStep, runDispatch, hpick, Project.summary, hflag,
      decideDispatch, startIfAllowed, Project.held, hqa]
  refine ⟨?_, by decide +kernel, by decide +kernel, hrun⟩
  rintro ⟨-, hnever⟩
  exact hnever (fun _ => ⟨.retryQa, .devopsApproval, "", none⟩) "" false [(0, true, 0)] (hrun _ _ _)

end SpineFormal.Hub.Recovery
