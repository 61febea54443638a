import SpineFormal.Base.FirstOfKey
import SpineFormal.Base.LineFile

/-!
# What the scouts found, merged into a TRD

`plan/swarm/synthesis.py` makes a technical document of the contributions of the scouts. The models
of the document refuse texts that say nothing. A refusal in the architecture is raised as it is, one
in the rest of the document as a `SynthesisError`.
-/

namespace SpineFormal.Plan.Swarm

set_option autoImplicit false

abbrev Text := List Char

/-! ## The contributions -/

inductive ScoutRole where
  | researcher
  | engineer
  | datawright
  | operator
  | qa
  deriving DecidableEq

inductive ScoutLens where
  | currentState
  | feasibility
  | data
  | infra
  | quality
  deriving DecidableEq

inductive Severity where
  | info
  | low
  | medium
  | high
  | critical

inductive FindingKind where
  | constraint
  | recommendation
  | dependency
  | gap
  | opportunity
  deriving DecidableEq

inductive Likelihood where
  | low
  | medium
  | high

inductive Impact where
  | low
  | medium
  | high
  | critical

def ScoutRole.value : ScoutRole → String
  | researcher => "researcher"
  | engineer => "engineer"
  | datawright => "datawright"
  | operator => "operator"
  | qa => "qa"

/-- `DEFAULT_LENS_FOR_ROLE`. -/
def defaultLensForRole : ScoutRole → ScoutLens
  | .researcher => .currentState
  | .engineer => .feasibility
  | .datawright => .data
  | .operator => .infra
  | .qa => .quality

structure Finding where
  severity : Severity
  kind : FindingKind
  fileOrSection : Text
  description : Text
  recommendation : Option Text
  description_ne : description ≠ []

structure RiskItem where
  description : Text
  likelihood : Likelihood
  impact : Impact
  mitigation : Option Text
  description_ne : description ≠ []

structure OpenQuestion where
  id : Text
  question : Text
  recommendation : Option Text
  question_ne : question ≠ []

structure ScoutContribution where
  scoutRole : ScoutRole
  findings : List Finding
  risks : List RiskItem
  openQuestions : List OpenQuestion

/-- `_lens_matches_role` lets no other lens through. -/
def ScoutContribution.lens (c : ScoutContribution) : ScoutLens := defaultLensForRole c.scoutRole

/-! ## Texts that say nothing -/

/-- `EMPTY_SENTINELS`. -/
def emptySentinels : List Text :=
  ["", "tbd", "todo", "fixme", "n/a", "na", "?", "..."].map String.toList

/-- What `str_strip_whitespace` makes of a text. -/
def strip (s : Text) : Text := trimBy whiteSpace s

/-- `xs or default`. -/
def orDefault (s default : Text) : Text := if s = [] then default else s

section
variable (lower : Text → Text)

/-- `is_empty_or_tbd`. -/
def isEmptyOrTbd (v : Text) : Bool := emptySentinels.contains (lower (trimBy pySpace v))

/-- The fields of a model that its validators refused. -/
abbrev ValidationError := List String

/-- The names of the fields that say nothing. -/
def refused (fields : List (String × Text)) : ValidationError :=
  (fields.filter fun f => isEmptyOrTbd lower f.2).map Prod.fst

/-! ## The models -/

structure Component where
  name : Text
  responsibility : Text

structure TechChoice where
  concern : Text
  decision : Text
  rationale : Text

structure Risk where
  description : Text
  likelihood : Likelihood
  impact : Impact
  mitigation : Text

structure TrdQuestion where
  id : Text
  question : Text
  recommendation : Option Text

structure ArchitectureSection where
  systemOverview : Text
  components : List Component
  dataFlow : Text

structure NonFunctionalRequirements where
  performance : Text
  security : Text
  scalability : Text
  observability : Text
  cost : Text

structure ScopeEstimate where
  epicsCount : Nat
  storiesCount : Nat

structure Trd where
  projectId : Text
  prdRef : Text
  architecture : ArchitectureSection
  nfrs : NonFunctionalRequirements
  techChoices : List TechChoice
  risks : List Risk
  openQuestions : List TrdQuestion
  scopeEstimate : ScopeEstimate
  createdBy : Text

/-- The model, unless a field is refused. -/
def checked {α : Type} (a : α) (fields : List (String × Text)) : Except ValidationError α :=
  if refused lower fields = [] then .ok a else .error (refused lower fields)

def Component.validate (c : Component) : Except ValidationError Component :=
  let c : Component := ⟨strip c.name, strip c.responsibility⟩
  checked lower c [("name", c.name), ("responsibility", c.responsibility)]

def TechChoice.validate (t : TechChoice) : Except ValidationError TechChoice :=
  let t : TechChoice := ⟨strip t.concern, strip t.decision, strip t.rationale⟩
  checked lower t [("concern", t.concern), ("decision", t.decision), ("rationale", t.rationale)]

def Risk.validate (r : Risk) : Except ValidationError Risk :=
  let r : Risk := ⟨strip r.description, r.likelihood, r.impact, strip r.mitigation⟩
  checked lower r [("description", r.description), ("mitigation", r.mitigation)]

def TrdQuestion.validate (q : TrdQuestion) : Except ValidationError TrdQuestion :=
  let q : TrdQuestion := ⟨strip q.id, strip q.question, q.recommendation.map strip⟩
  checked lower q [("question", q.question)]

/-- The section's own fields; its texts are not stripped. -/
def ArchitectureSection.validate (a : ArchitectureSection) :
    Except ValidationError ArchitectureSection :=
  checked lower a [("system_overview", a.systemOverview), ("data_flow", a.dataFlow)]

/-- `TRDv1(...)` of parts that are models already; the status is a draft. -/
def Trd.make (t : Trd) : Except ValidationError Trd :=
  let t : Trd := { t with
    projectId := strip t.projectId, prdRef := strip t.prdRef, createdBy := strip t.createdBy }
  checked lower t [("project_id", t.projectId), ("prd_ref", t.prdRef)]

/-- `TRDv1.model_validate` of a dumped document: every part is validated again. -/
def Trd.modelValidate (t : Trd) : Except ValidationError Trd := do
  let components ← t.architecture.components.mapM (Component.validate lower)
  let architecture ← ArchitectureSection.validate lower { t.architecture with components }
  let techChoices ← t.techChoices.mapM (TechChoice.validate lower)
  let risks ← t.risks.mapM (Risk.validate lower)
  let openQuestions ← t.openQuestions.mapM (TrdQuestion.validate lower)
  Trd.make lower { t with architecture, techChoices, risks, openQuestions }

/-! ## The synthesis -/

/-- The product's document, as far as it is used. -/
structure Prd where
  projectId : Text
  version : Text
  problemStatement : Text
  goalsMust : List Text
  acceptanceCriteria : List Text

/-- `PRDv1` has refused texts that say nothing. -/
structure Prd.Valid (prd : Prd) : Prop where
  projectId : isEmptyOrTbd lower (strip prd.projectId) = false

def ofLens (lens : ScoutLens) (cs : List ScoutContribution) : List ScoutContribution :=
  cs.filter fun c => c.lens = lens

/-- The findings that are recommendations. -/
def recommendations (cs : List ScoutContribution) : List Finding :=
  (cs.flatMap ScoutContribution.findings).filter fun f => f.kind = .recommendation

def componentName (f : Finding) : Text :=
  orDefault ((trimBy pySpace (orDefault f.fileOrSection "component".toList)).take 60)
    "component".toList

def componentOf (f : Finding) : Component := ⟨componentName f, f.description.take 140⟩

/-- `_components_from`. -/
def componentsFrom (cs : List ScoutContribution) : Except ValidationError (List Component) :=
  makeFirst componentName (fun f => (componentOf f).validate lower) [] (recommendations cs)

/-- `x.strip().lower()`. -/
def foldKey (s : Text) : Text := lower (trimBy pySpace s)

def riskOf (r : RiskItem) : Risk :=
  ⟨r.description, r.likelihood, r.impact,
    orDefault (r.mitigation.getD []) "Defer to architect during build.".toList⟩

/-- `_dedupe_risks`. -/
def dedupeRisks (cs : List ScoutContribution) : Except ValidationError (List Risk) :=
  makeFirst (fun r => foldKey lower r.description) (fun r => (riskOf r).validate lower) []
    (cs.flatMap ScoutContribution.risks)

def questionOf (q : OpenQuestion) : TrdQuestion := ⟨q.id, q.question, q.recommendation⟩

/-- `_dedupe_oqs`. -/
def dedupeOqs (cs : List ScoutContribution) : Except ValidationError (List TrdQuestion) :=
  makeFirst (fun q => foldKey lower q.question) (fun q => (questionOf q).validate lower) []
    (cs.flatMap ScoutContribution.openQuestions)

def joinWith (sep : Text) (xs : List Text) : Text := sep.intercalate xs

def Severity.counts : Severity → Bool
  | medium | high | critical => true
  | _ => false

def joinFindings (cs : List ScoutContribution) : Text :=
  (joinWith [' '] (((cs.flatMap ScoutContribution.findings).filter fun f =>
    f.severity.counts).map Finding.description)).take 400

/-- `_nfrs_from`. -/
def nfrsFrom (cs : List ScoutContribution) : NonFunctionalRequirements where
  performance := orDefault (joinFindings (ofLens .infra cs)) "Defer until load profile measured.".toList
  security := orDefault (joinFindings (ofLens .feasibility cs)) "Default deny; review during build.".toList
  scalability := orDefault (joinFindings (ofLens .infra cs)) "Scale-out path TBD by operator.".toList
  observability := orDefault (joinFindings (ofLens .infra cs)) "Structured logs; metrics per phase.".toList
  cost := orDefault (joinFindings (ofLens .feasibility cs)) "Budget caps enforced by router.".toList

def techChoiceOf (f : Finding) : TechChoice :=
  ⟨(orDefault f.fileOrSection "tech-choice".toList).take 60, (f.recommendation.getD []).take 80,
    orDefault (f.description.take 200) "See scout finding.".toList⟩

/-- `_tech_choices_from`. -/
def techChoicesFrom (eng : List ScoutContribution) : Except ValidationError (List TechChoice) :=
  ((recommendations eng).filter fun f => f.recommendation.getD [] ≠ []).mapM fun f =>
    (techChoiceOf f).validate lower

def bullet (c : ScoutContribution) : Text :=
  c.scoutRole.value.toList ++ ": ".toList ++ joinWith [' '] ((c.findings.take 3).map Finding.description)

/-- `_arch_prose` without a prose pass. -/
def archProse (researcher engineer : List ScoutContribution) : Text × Text :=
  (orDefault ((joinWith [' '] ((researcher ++ engineer).map bullet)).take 1000)
      "Deterministic synthesis: see component list below.".toList,
    orDefault ((joinWith [' '] (engineer.map bullet)).take 1000)
      "Deterministic synthesis: see component responsibilities.".toList)

inductive SynthesisFailure where
  /-- Raised before the `try`. -/
  | validation (e : ValidationError)
  /-- `SynthesisError`, with what it was raised from. -/
  | synthesis (e : ValidationError)

/-- The part of `synthesize_trd` before the `try`. -/
def synthesizeArchitecture (cs : List ScoutContribution) : Except ValidationError ArchitectureSection :=
  let engineer := ofLens .feasibility cs
  let researcher := ofLens .currentState cs
  let prose := archProse researcher engineer
  do
    let components ← componentsFrom lower (engineer ++ researcher)
    ArchitectureSection.validate lower ⟨prose.1, components, prose.2⟩

/-- The part in the `try`. -/
def synthesizeRest (prd : Prd) (cs : List ScoutContribution) (architecture : ArchitectureSection) :
    Except ValidationError Trd := do
  let techChoices ← techChoicesFrom lower (ofLens .feasibility cs)
  let risks ← dedupeRisks lower cs
  let openQuestions ← dedupeOqs lower cs
  Trd.make lower {
    projectId := prd.projectId
    prdRef := "PRD::".toList ++ prd.projectId ++ ['#'] ++ prd.version
    architecture, nfrs := nfrsFrom cs, techChoices, risks, openQuestions
    scopeEstimate := ⟨max 1 prd.goalsMust.length, max 1 prd.acceptanceCriteria.length⟩
    createdBy := "architect".toList }

def synthesizeTrd (prd : Prd) (cs : List ScoutContribution) : Except SynthesisFailure Trd :=
  match synthesizeArchitecture lower cs with
  | .error e => .error (.validation e)
  | .ok architecture =>
    match synthesizeRest lower prd cs architecture with
    | .error e => .error (.synthesis e)
    | .ok trd => .ok trd

end

/-! ## When a document comes out -/

section
variable {ε α β : Type} {f : α → Except ε β}

theorem bindOk {x : Except ε α} {g : α → Except ε β} {b : β} (h : x >>= g = .ok b) :
    ∃ a, x = .ok a ∧ g a = .ok b := by
  cases x with
  | error e => cases h
  | ok a => exact ⟨a, rfl, h⟩

theorem mapM_ok_iff (l : List α) : (∃ bs, l.mapM f = .ok bs) ↔ ∀ a ∈ l, ∃ b, f a = .ok b := by
  induction l with
  | nil => exact iff_of_true ⟨[], rfl⟩ fun _ h => nomatch h
  | cons a l ih =>
    rw [List.mapM_cons, List.forall_mem_cons, ← ih]
    cases f a with
    | error e => exact iff_of_false (fun ⟨_, h⟩ => nomatch h) fun ⟨⟨_, h⟩, _⟩ => nomatch h
    | ok b =>
      cases l.mapM f with
      | error e => exact iff_of_false (fun ⟨_, h⟩ => nomatch h) fun ⟨_, _, h⟩ => nomatch h
      | ok bs => exact iff_of_true ⟨_, rfl⟩ ⟨⟨_, rfl⟩, _, rfl⟩

theorem mapM_made {l : List α} {bs : List β} (h : l.mapM f = .ok bs) :
    ∀ b ∈ bs, ∃ a ∈ l, f a = .ok b := by
  induction l generalizing bs with
  | nil =>
    obtain rfl := Except.ok.inj h
    exact fun _ hb => nomatch hb
  | cons a l ih =>
    rw [List.mapM_cons] at h
    cases ha : f a with
    | error e =>
      rw [ha] at h
      cases h
    | ok b =>
      cases hl : l.mapM f with
      | error e =>
        rw [ha, hl] at h
        cases h
      | ok bs' =>
        rw [ha, hl] at h
        obtain rfl := Except.ok.inj h
        intro b' hb'
        rcases List.mem_cons.mp hb' with rfl | hb'
        · exact ⟨a, List.mem_cons_self, ha⟩
        · obtain ⟨a', ha', hmake⟩ := ih hl b' hb'
          exact ⟨a', List.mem_cons_of_mem a ha', hmake⟩

theorem mapM_self {f : α → Except ε α} {l : List α} (h : ∀ a ∈ l, f a = .ok a) :
    l.mapM f = .ok l := by
  induction l with
  | nil => rfl
  | cons a l ih =>
    obtain ⟨ha, hl⟩ := List.forall_mem_cons.mp h
    rw [List.mapM_cons, ha, ih hl]
    rfl

end

section
variable {lower : Text → Text}

variable (lower) in
/-- Stripped, the text says something. -/
def Says (s : Text) : Prop := isEmptyOrTbd lower (strip s) = false

instance (s : Text) : Decidable (Says lower s) := inferInstanceAs (Decidable (_ = false))

theorem refused_eq_nil_iff (fields : List (String × Text)) :
    refused lower fields = [] ↔ ∀ f ∈ fields, isEmptyOrTbd lower f.2 = false := by
  rw [refused, List.map_eq_nil_iff, List.filter_eq_nil_iff]
  simp only [Bool.not_eq_true]

theorem checked_ok_iff {α : Type} (a : α) (fields : List (String × Text)) :
    (∃ b, checked lower a fields = .ok b) ↔ ∀ f ∈ fields, isEmptyOrTbd lower f.2 = false := by
  rw [← refused_eq_nil_iff, checked]
  split
  · rename_i h
    exact iff_of_true ⟨a, rfl⟩ h
  · rename_i h
    exact iff_of_false (fun ⟨_, hb⟩ => nomatch hb) h

theorem checked_eq_ok {α : Type} {a b : α} {fields : List (String × Text)}
    (h : checked lower a fields = .ok b) : a = b ∧ checked lower a fields = .ok a := by
  unfold checked at h ⊢
  split at h
  · rename_i hnil
    exact ⟨Except.ok.inj h, if_pos hnil⟩
  · cases h

theorem strip_strip (s : Text) : strip (strip s) = strip s := trimBy_trimBy whiteSpace s

/-! A model that was validated is validated again as it is. -/

theorem Component.validate_again {c d : Component} (h : c.validate lower = .ok d) :
    d.validate lower = .ok d := by
  obtain ⟨rfl, hok⟩ := checked_eq_ok h
  simp only [Component.validate, strip_strip]
  exact hok

theorem TechChoice.validate_again {t u : TechChoice} (h : t.validate lower = .ok u) :
    u.validate lower = .ok u := by
  obtain ⟨rfl, hok⟩ := checked_eq_ok h
  simp only [TechChoice.validate, strip_strip]
  exact hok

theorem Risk.validate_again {r t : Risk} (h : r.validate lower = .ok t) :
    t.validate lower = .ok t := by
  obtain ⟨rfl, hok⟩ := checked_eq_ok h
  simp only [Risk.validate, strip_strip]
  exact hok

theorem TrdQuestion.validate_again {q r : TrdQuestion} (h : q.validate lower = .ok r) :
    r.validate lower = .ok r := by
  obtain ⟨rfl, hok⟩ := checked_eq_ok h
  have hmap : (q.recommendation.map strip).map strip = q.recommendation.map strip := by
    rw [Option.map_map, show strip ∘ strip = strip from funext strip_strip]
  simp only [TrdQuestion.validate, strip_strip, hmap]
  exact hok

theorem Trd.make_again {t u : Trd} (h : t.make lower = .ok u) : u.make lower = .ok u := by
  obtain ⟨rfl, hok⟩ := checked_eq_ok h
  simp only [Trd.make, strip_strip]
  exact hok

/-! The texts that the synthesis writes itself have a colon. -/

theorem colon_mem_prose (cs : List ScoutContribution) {default : Text} (hdefault : ':' ∈ default) :
    ':' ∈ orDefault ((joinWith [' '] (cs.map bullet)).take 1000) default := by
  cases cs with
  | nil => exact hdefault
  | cons c cs =>
    obtain ⟨rest, hrest⟩ : ∃ rest, joinWith [' '] ((c :: cs).map bullet) =
        (c.scoutRole.value.toList ++ [':']) ++ rest := by
      have hbullet : bullet c = (c.scoutRole.value.toList ++ [':']) ++
          (' ' :: joinWith [' '] ((c.findings.take 3).map Finding.description)) := by
        simp [bullet, List.append_assoc]
      cases cs with
      | nil =>
        refine ⟨_, Eq.trans ?_ hbullet⟩
        rw [joinWith, List.map_singleton, List.intercalate_singleton]
      | cons d cs =>
        have hjoin : joinWith [' '] ((c :: d :: cs).map bullet) =
            bullet c ++ ([' '] ++ joinWith [' '] ((d :: cs).map bullet)) := by
          simp [joinWith, List.intercalate_cons_cons]
        rw [hjoin, hbullet, List.append_assoc]
        exact ⟨_, rfl⟩
    have hshort : (c.scoutRole.value.toList ++ [':']).length ≤ 1000 := by
      cases c.scoutRole <;> decide
    have hmem : ':' ∈ (joinWith [' '] ((c :: cs).map bullet)).take 1000 := by
      rw [hrest, List.take_append, List.take_of_length_le hshort]
      simp
    rw [orDefault, if_neg (List.ne_nil_of_mem hmem)]
    exact hmem

variable (hcolon : ∀ s, ':' ∈ s → ':' ∈ lower s)
include hcolon

theorem isEmptyOrTbd_of_colon {s : Text} (h : ':' ∈ s) : isEmptyOrTbd lower s = false := by
  have htrim : ':' ∈ trimBy pySpace s := by
    obtain ⟨a, b, hs, ha, hb⟩ := exists_trimBy pySpace s
    rw [hs] at h
    rcases List.mem_append.mp h with h | h
    · exact absurd (ha _ h) (by decide)
    · rcases List.mem_append.mp h with h | h
      · exact h
      · exact absurd (hb _ h) (by decide)
  have hnone : ∀ v ∈ emptySentinels, ':' ∉ v := by decide
  rw [isEmptyOrTbd, ← Bool.not_eq_true, List.contains_iff_mem]
  exact fun hmem => hnone _ hmem (hcolon _ htrim)

theorem says_of_colon {s : Text} (h : ':' ∈ s) : Says lower s := by
  apply isEmptyOrTbd_of_colon hcolon
  obtain ⟨a, b, hs, ha, hb⟩ := exists_trimBy whiteSpace s
  rw [hs] at h
  rcases List.mem_append.mp h with h | h
  · exact absurd (ha _ h) (by decide)
  · rcases List.mem_append.mp h with h | h
    · exact h
    · exact absurd (hb _ h) (by decide)

omit hcolon

/-- The components that the architecture gets have names and responsibilities. -/
def ArchitectureSays (lower : Text → Text) (cs : List ScoutContribution) : Prop :=
  ∀ f, FirstOfKey componentName (recommendations (ofLens .feasibility cs ++ ofLens .currentState cs)) f →
    Says lower (componentName f) ∧ Says lower (f.description.take 140)

/-- So do the choices, the risks and the questions. -/
structure RestSays (lower : Text → Text) (cs : List ScoutContribution) : Prop where
  techChoices : ∀ f ∈ recommendations (ofLens .feasibility cs), f.recommendation.getD [] ≠ [] →
    Says lower (techChoiceOf f).concern ∧ Says lower (techChoiceOf f).decision ∧
      Says lower (techChoiceOf f).rationale
  risks : ∀ r, FirstOfKey (fun r : RiskItem => foldKey lower r.description)
    (cs.flatMap ScoutContribution.risks) r →
      Says lower r.description ∧ Says lower (riskOf r).mitigation
  openQuestions : ∀ q, FirstOfKey (fun q : OpenQuestion => foldKey lower q.question)
    (cs.flatMap ScoutContribution.openQuestions) q → Says lower q.question

theorem component_ok_iff (c : Component) :
    (∃ d, c.validate lower = .ok d) ↔ Says lower c.name ∧ Says lower c.responsibility := by
  rw [Component.validate, checked_ok_iff]
  simp [Says]

theorem techChoice_ok_iff (t : TechChoice) : (∃ u, t.validate lower = .ok u) ↔
    Says lower t.concern ∧ Says lower t.decision ∧ Says lower t.rationale := by
  rw [TechChoice.validate, checked_ok_iff]
  simp [Says]

theorem risk_ok_iff (r : Risk) :
    (∃ t, r.validate lower = .ok t) ↔ Says lower r.description ∧ Says lower r.mitigation := by
  rw [Risk.validate, checked_ok_iff]
  simp [Says]

theorem question_ok_iff (q : TrdQuestion) :
    (∃ r, q.validate lower = .ok r) ↔ Says lower q.question := by
  rw [TrdQuestion.validate, checked_ok_iff]
  simp [Says]

theorem componentsFrom_ok_iff (cs : List ScoutContribution) :
    (∃ comps, componentsFrom lower (ofLens .feasibility cs ++ ofLens .currentState cs) = .ok comps) ↔
      ArchitectureSays lower cs := by
  rw [componentsFrom, makeFirst_ok_iff]
  refine forall₂_congr fun f _ => ?_
  rw [component_ok_iff]
  exact ⟨fun h => h List.not_mem_nil, fun h _ => h⟩

include hcolon in
/-- The prose is never refused. -/
theorem architecture_ok (cs : List ScoutContribution) (comps : List Component) :
    ∃ a, ArchitectureSection.validate lower ⟨(archProse (ofLens .currentState cs)
      (ofLens .feasibility cs)).1, comps, (archProse (ofLens .currentState cs)
        (ofLens .feasibility cs)).2⟩ = .ok a := by
  rw [ArchitectureSection.validate, checked_ok_iff]
  refine List.forall_mem_cons.mpr ⟨?_, List.forall_mem_singleton.mpr ?_⟩
  · exact isEmptyOrTbd_of_colon hcolon (colon_mem_prose _ (by decide))
  · exact isEmptyOrTbd_of_colon hcolon (colon_mem_prose _ (by decide))

include hcolon in
theorem synthesizeArchitecture_ok_iff (cs : List ScoutContribution) :
    (∃ a, synthesizeArchitecture lower cs = .ok a) ↔ ArchitectureSays lower cs := by
  rw [← componentsFrom_ok_iff]
  unfold synthesizeArchitecture
  dsimp only [bind, Except.bind]
  cases componentsFrom lower (ofLens .feasibility cs ++ ofLens .currentState cs) with
  | error e => exact iff_of_false (fun ⟨_, h⟩ => nomatch h) fun ⟨_, h⟩ => nomatch h
  | ok comps => exact iff_of_true (architecture_ok hcolon cs comps) ⟨comps, rfl⟩

include hcolon in
theorem synthesizeRest_ok_iff {prd : Prd} (hprd : prd.Valid lower) (cs : List ScoutContribution)
    (architecture : ArchitectureSection) :
    (∃ trd, synthesizeRest lower prd cs architecture = .ok trd) ↔ RestSays lower cs := by
  have htech : (∃ out, techChoicesFrom lower (ofLens .feasibility cs) = .ok out) ↔
      ∀ f ∈ recommendations (ofLens .feasibility cs), f.recommendation.getD [] ≠ [] →
        Says lower (techChoiceOf f).concern ∧ Says lower (techChoiceOf f).decision ∧
          Says lower (techChoiceOf f).rationale := by
    rw [techChoicesFrom, mapM_ok_iff]
    simp only [List.mem_filter, decide_eq_true_eq, and_imp, techChoice_ok_iff]
  have hrisks : (∃ out, dedupeRisks lower cs = .ok out) ↔
      ∀ r, FirstOfKey (fun r : RiskItem => foldKey lower r.description)
        (cs.flatMap ScoutContribution.risks) r →
          Says lower r.description ∧ Says lower (riskOf r).mitigation := by
    rw [dedupeRisks, makeFirst_ok_iff]
    refine forall₂_congr fun r _ => ?_
    rw [risk_ok_iff]
    exact ⟨fun h => h List.not_mem_nil, fun h _ => h⟩
  have hquestions : (∃ out, dedupeOqs lower cs = .ok out) ↔
      ∀ q, FirstOfKey (fun q : OpenQuestion => foldKey lower q.question)
        (cs.flatMap ScoutContribution.openQuestions) q → Says lower q.question := by
    rw [dedupeOqs, makeFirst_ok_iff]
    refine forall₂_congr fun q _ => ?_
    rw [question_ok_iff]
    exact ⟨fun h => h List.not_mem_nil, fun h _ => h⟩
  have hmake (t : Trd) (hid : t.projectId = prd.projectId)
      (href : ':' ∈ t.prdRef) : ∃ u, t.make lower = .ok u := by
    rw [Trd.make, checked_ok_iff]
    refine List.forall_mem_cons.mpr ⟨?_, List.forall_mem_singleton.mpr ?_⟩
    · dsimp only
      rw [hid]
      exact hprd.projectId
    · exact says_of_colon hcolon href
  constructor
  · rintro ⟨trd, h⟩
    unfold synthesizeRest at h
    obtain ⟨_, ht, h⟩ := bindOk h
    obtain ⟨_, hr, h⟩ := bindOk h
    obtain ⟨_, hq, -⟩ := bindOk h
    exact ⟨htech.mp ⟨_, ht⟩, hrisks.mp ⟨_, hr⟩, hquestions.mp ⟨_, hq⟩⟩
  · rintro ⟨ht, hr, hq⟩
    obtain ⟨_, ht⟩ := htech.mpr ht
    obtain ⟨_, hr⟩ := hrisks.mpr hr
    obtain ⟨_, hq⟩ := hquestions.mpr hq
    unfold synthesizeRest
    rw [ht, hr, hq]
    exact hmake _ rfl (by simp)

/-- The document that comes out is validated again as it is. -/
theorem modelValidate_again {prd : Prd} {cs : List ScoutContribution} {trd : Trd}
    (h : synthesizeTrd lower prd cs = .ok trd) : trd.modelValidate lower = .ok trd := by
  unfold synthesizeTrd at h
  split at h
  · cases h
  · rename_i architecture harch
    split at h
    · cases h
    · rename_i trd' hrest
      obtain rfl := Except.ok.inj h
      obtain ⟨comps, hcomps, hvalid⟩ := bindOk harch
      obtain ⟨rfl, hagain⟩ := checked_eq_ok hvalid
      obtain ⟨choices, hchoices, hrest⟩ := bindOk hrest
      obtain ⟨risks, hrisks, hrest⟩ := bindOk hrest
      obtain ⟨questions, hquestions, hmake⟩ := bindOk hrest
      have hmake' := Trd.make_again hmake
      obtain ⟨rfl, -⟩ := checked_eq_ok hmake
      have h₁ : comps.mapM (Component.validate lower) = .ok comps :=
        mapM_self fun c hc => by
          obtain ⟨f, -, hf⟩ := makeFirst_made hcomps c hc
          exact Component.validate_again hf
      have h₂ : choices.mapM (TechChoice.validate lower) = .ok choices :=
        mapM_self fun t ht => by
          obtain ⟨f, -, hf⟩ := mapM_made hchoices t ht
          exact TechChoice.validate_again hf
      have h₃ : risks.mapM (Risk.validate lower) = .ok risks :=
        mapM_self fun r hr => by
          obtain ⟨a, -, ha⟩ := makeFirst_made hrisks r hr
          exact Risk.validate_again ha
      have h₄ : questions.mapM (TrdQuestion.validate lower) = .ok questions :=
        mapM_self fun q hq => by
          obtain ⟨a, -, ha⟩ := makeFirst_made hquestions q hq
          exact TrdQuestion.validate_again ha
      unfold Trd.modelValidate
      dsimp only [bind, Except.bind] at hmake' ⊢
      rw [h₁]
      dsimp only
      rw [ArchitectureSection.validate, hagain]
      dsimp only
      rw [h₂, h₃, h₄]
      exact hmake'

end

end SpineFormal.Plan.Swarm
