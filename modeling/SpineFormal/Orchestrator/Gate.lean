import SpineFormal.Orchestrator.Transition
import Mathlib.Data.List.Infix
import Mathlib.Data.List.Sort

/-!
# Phase gates and recorded approvals

`gate.sh` reports the gate of the phase a project is in; `transition.sh` asks for
an approval of the phase it is to enter. Both read the rows of the table
`approval`, for an arbitrary manifest here. `gate.sh` counts the approvers with
string operations on a comma-separated list, which is kept.
-/

namespace SpineFormal.Orchestrator

set_option autoImplicit false

/-- A principal of `required_approvers`, a word without the characters that the scripts split or
strip at. -/
structure Principal where
  text : List Char
  plain : text ≠ [] ∧ ∀ c ∈ text, c ∉ [' ', ',', '"', '[', ']', '\n', '\t']

structure GateDef extends PhaseDef where
  requiredApprovers : List Principal := []
  minApprovers : Option Nat := none
  minApprovals : Option Nat := none

structure Manifest where
  phases : List GateDef
  distinct : (phases.map fun d => d.id).Nodup

theorem phasesYaml_distinct : (phasesYaml.map PhaseDef.id).Nodup := by decide

/-- The shipped manifest, which names no approvers. -/
def shippedManifest : Manifest :=
  ⟨phasesYaml.map fun d => { d with }, by rw [List.map_map]; exact phasesYaml_distinct⟩

namespace Manifest
variable (m : Manifest)

def loadPhaseDef (yq : Bool) (phase : Phase) : Option GateDef :=
  if yq then none else m.phases.find? fun d => decide (d.id = phase)

/-- The scalar `gate:`, empty when it is missing. -/
def gate (yq : Bool) (phase : Phase) : String :=
  ((m.loadPhaseDef yq phase).bind fun d => d.gate).getD ""

def next (yq : Bool) (phase : Phase) : List Phase :=
  ((m.loadPhaseDef yq phase).map fun d => d.next).getD []

def rollbackTo (yq : Bool) (phase : Phase) : List Phase :=
  ((m.loadPhaseDef yq phase).map fun d => d.rollbackTo).getD []

def requiredApprovers (yq : Bool) (phase : Phase) : List Principal :=
  ((m.loadPhaseDef yq phase).map GateDef.requiredApprovers).getD []

/-- `min_approvals`, else `min_approvers`, else the number of required approvers, else 1. -/
def minApprovals (yq : Bool) (phase : Phase) : Nat :=
  match (m.loadPhaseDef yq phase).bind GateDef.minApprovals with
  | some n => n
  | none =>
    match (m.loadPhaseDef yq phase).bind GateDef.minApprovers with
    | some n => n
    | none => max 1 (m.requiredApprovers yq phase).length

end Manifest

inductive ApprovalDecision where
  | approved
  | rejected
  | requestChanges
  deriving DecidableEq

/-- A token of `approval.py`, two pieces of base64url text with a dot between them. -/
structure Token where
  text : List Char
  plain : ∀ c ∈ text, c ∉ ['|', '\n', '\t']

/-- A row of `spine_lifecycle.approval`. -/
structure Approval where
  phase : Phase
  approver : List Char
  decision : ApprovalDecision := .approved
  token : Option Token := none
  grantedAt : Nat
  expiresAt : Option Nat := none

/-- An approval of the phase that has not expired. -/
def Approval.Live (a : Approval) (phase : Phase) (now : Nat) : Prop :=
  a.phase = phase ∧ a.decision = .approved ∧ ∀ t ∈ a.expiresAt, now < t

instance (a : Approval) (phase : Phase) (now : Nat) : Decidable (a.Live phase now) := by
  unfold Approval.Live
  infer_instance

def Approval.tokenText (a : Approval) : List Char := (a.token.map Token.text).getD []

/-- What the scripts run beside the database: `yq`, `approval.py` and how `psql` prints a time. -/
structure Tools where
  yq : Bool := false
  approvalPyExecutable : Bool := false
  verify : List Char → Phase → Bool
  timestampText : Nat → List Char

section Status
variable (tools : Tools) (m : Manifest)

def liveApprovals (rows : List Approval) (phase : Phase) (now : Nat) : List Approval :=
  rows.filter fun a => decide (a.Live phase now)

/-- `token|approver`, oldest grant first, as lines. -/
def approvalLines (rows : List Approval) (phase : Phase) (now : Nat) : List (List Char) :=
  ((liveApprovals rows phase now).insertionSort fun a b => a.grantedAt ≤ b.grantedAt).flatMap
    fun a => (a.tokenText ++ '|' :: a.approver).splitOn '\n'

/-- `[[ ",$set," == *",$item,"* ]]`. -/
def csvHas (set item : List Char) : Bool :=
  decide ((',' :: (item ++ [','])) <:+: (',' :: (set ++ [','])))

def csvAdd (set item : List Char) : List Char := if set = [] then item else set ++ ',' :: item

/-- The words of the list under the scripts' `IFS`, which has no blank in it. -/
def matchPrincipal (approver required : List Char) : Option (List Char) :=
  ((required.splitOnP fun c => c == '\n' || c == '\t').filter (· ≠ [])).find? fun p =>
    decide (p = approver ∨ p = "user:".toList ++ approver)

/-- The counters of `_count_valid_approvals`. -/
structure ApprovalCount where
  seen : Nat := 0
  matched : Nat := 0
  set : List Char := []
  matchedSet : List Char := []

def ApprovalCount.line (phase : Phase) (required : List Char) (n : ApprovalCount)
    (line : List Char) : ApprovalCount :=
  if line = [] then n
  else
    let token := line.takeWhile (· ≠ '|')
    let approver := if '|' ∈ line then (line.dropWhile (· ≠ '|')).tail else line
    if token ≠ [] ∧ tools.verify token phase = false then n
    else if csvHas n.set approver then n
    else
      let n := { n with set := csvAdd n.set approver, seen := n.seen + 1 }
      if required = [] then n
      else
        match matchPrincipal approver required with
        | none => n
        | some p =>
          if csvHas n.matchedSet p then n
          else { n with matchedSet := csvAdd n.matchedSet p, matched := n.matched + 1 }

def countValidApprovals (rows : List Approval) (phase : Phase) (now : Nat)
    (required : List Char) : ApprovalCount :=
  (approvalLines rows phase now).foldl (ApprovalCount.line tools phase required) {}

/-- What `gate_status` prints, in the fields that depend on the approvals. -/
structure GateStatus where
  phase : Phase
  gate : String
  minApprovals : Nat
  validApprovals : Nat
  matchedRequired : Nat
  stillNeeded : Nat
  satisfied : Bool

def requiredList (phase : Phase) : List Char :=
  [' '].intercalate ((m.requiredApprovers tools.yq phase).map Principal.text)

/-- The approvals that are held against `min_approvals`: of the required approvers, if there are
any. -/
def gateCount (rows : List Approval) (phase : Phase) (now : Nat) : Nat :=
  let n := countValidApprovals tools rows phase now (requiredList tools m phase)
  if requiredList tools m phase = [] then n.seen else n.matched

/-- No gate stands at the phase, or one that opens by itself. -/
def ungated (phase : Phase) : Prop := m.gate tools.yq phase ∈ ["", "auto"]

instance (phase : Phase) : Decidable (ungated tools m phase) :=
  inferInstanceAs (Decidable (_ ∈ _))

def gateStatus (rows : List Approval) (now : Nat) (currentPhase : Option Phase) :
    Option GateStatus :=
  currentPhase.map fun phase =>
    let n := countValidApprovals tools rows phase now (requiredList tools m phase)
    let count := gateCount tools m rows phase now
    let needed := m.minApprovals tools.yq phase
    { phase := phase
      gate := m.gate tools.yq phase
      minApprovals := needed
      validApprovals := n.seen
      matchedRequired := n.matched
      stillNeeded := if ungated tools m phase then 0 else needed - count
      satisfied := decide (ungated tools m phase ∨ needed ≤ count) }

end Status

/-! ## The gate check of a transition -/

inductive Refusal where
  | projectNotFound
  | noopTransition
  | rejectedInvalid
  | missingApproval
  | hmacFailed
  | dbError
  deriving DecidableEq

section Check
variable (tools : Tools) (m : Manifest)

/-- `token|expires_at` of the most recent live approval. -/
def approvalLine (rows : List Approval) (phase : Phase) (now : Nat) : Option (List Char) :=
  ((liveApprovals rows phase now).insertionSort fun a b => b.grantedAt ≤ a.grantedAt).head?.map
    fun a => a.tokenText ++ '|' :: ((a.expiresAt.map tools.timestampText).getD [])

/-- `read -r token expires_at` under the scripts' `IFS`: the first line up to a tab. -/
def readToken (line : List Char) : List Char := line.takeWhile fun c => c ≠ '\n' && c ≠ '\t'

def gateCheck (rows : List Approval) (now : Nat) (target : Phase) : Except Refusal Unit :=
  if m.gate tools.yq target = "" then .ok ()
  else
    match ((approvalLine tools rows target now).map readToken).getD [] with
    | [] => .error .missingApproval
    | c :: token =>
      if tools.approvalPyExecutable ∧ tools.verify (c :: token) target = false then
        .error .hmacFailed
      else .ok ()

def validateAt (currentPhase : Option Phase) (target : Phase) : Except Refusal Unit :=
  match currentPhase with
  | none => .error .projectNotFound
  | some phase =>
    if phase = target then .error .noopTransition
    else if target ∈ m.next tools.yq phase then .ok ()
    else .error .rejectedInvalid

/-- `transition_execute` with the manifest given; it answers whether the move is made. -/
def executeAt (rows : List Approval) (now : Nat) (currentPhase : Option Phase) (target : Phase)
    (commits : Bool) : Except Refusal Unit :=
  match validateAt tools m currentPhase target, gateCheck tools m rows now target with
  | .error e, _ => .error e
  | .ok _, .error e => .error e
  | .ok _, .ok _ => if commits then .ok () else .error .dbError

end Check

/-! ## The shipped manifest -/

theorem shippedManifest_loadPhaseDef (yq : Bool) (phase : Phase) :
    shippedManifest.loadPhaseDef yq phase = (loadPhaseDef yq phase).map fun d => { d with } := by
  unfold Manifest.loadPhaseDef loadPhaseDef
  split_ifs
  · rfl
  · exact List.find?_map

theorem shippedManifest_next (yq : Bool) (phase : Phase) :
    shippedManifest.next yq phase = allowedNext yq phase := by
  rw [Manifest.next, shippedManifest_loadPhaseDef, Option.map_map]
  rfl

theorem shippedManifest_rollbackTo (yq : Bool) (phase : Phase) :
    shippedManifest.rollbackTo yq phase = allowedRollback yq phase := by
  rw [Manifest.rollbackTo, shippedManifest_loadPhaseDef, Option.map_map]
  rfl

theorem shippedManifest_gate (yq : Bool) (phase : Phase) :
    shippedManifest.gate yq phase = (phaseGate yq phase).getD "" := by
  rw [Manifest.gate, shippedManifest_loadPhaseDef, Option.bind_map]
  rfl

section Check
variable {tools : Tools} {m : Manifest} {rows : List Approval} {now : Nat}

theorem validateAt_ok_iff {currentPhase : Option Phase} {target : Phase} :
    validateAt tools m currentPhase target = .ok () ↔
      ∃ phase, currentPhase = some phase ∧ phase ≠ target ∧ target ∈ m.next tools.yq phase := by
  unfold validateAt
  cases currentPhase with
  | none => simp
  | some phase =>
    dsimp only
    split_ifs with heq hnext
    · simp [heq]
    · simp [heq, hnext]
    · simp [hnext]

theorem validateAt_ne_missing {currentPhase : Option Phase} {target : Phase} :
    validateAt tools m currentPhase target ≠ .error .missingApproval := by
  unfold validateAt
  cases currentPhase with
  | none => simp
  | some phase =>
    dsimp only
    split_ifs <;> simp

theorem executeAt_ok_iff {currentPhase : Option Phase} {target : Phase} {commits : Bool} :
    executeAt tools m rows now currentPhase target commits = .ok () ↔
      validateAt tools m currentPhase target = .ok () ∧
        gateCheck tools m rows now target = .ok () ∧ commits = true := by
  unfold executeAt
  cases validateAt tools m currentPhase target with
  | error e => simp
  | ok u =>
    cases gateCheck tools m rows now target with
    | error e => simp
    | ok u => cases commits <;> simp

theorem executeAt_missing_iff {currentPhase : Option Phase} {target : Phase} {commits : Bool} :
    executeAt tools m rows now currentPhase target commits = .error .missingApproval ↔
      validateAt tools m currentPhase target = .ok () ∧
        gateCheck tools m rows now target = .error .missingApproval := by
  unfold executeAt
  cases hvalid : validateAt tools m currentPhase target with
  | error e =>
    refine iff_of_false ?_ (by simp)
    rintro ⟨⟩
    exact validateAt_ne_missing hvalid
  | ok u =>
    cases gateCheck tools m rows now target with
    | error e => simp
    | ok u => cases commits <;> simp

/-- With the answer of the gate check for its approval, `transitionExecute` makes the move just when
the check over the recorded rows lets it. -/
theorem transitionExecute_isOk_iff (st : Lifecycle) (target : Phase) (actor : String)
    (commits : Bool) :
    (∃ st', transitionExecute tools.yq st target actor
      { approval := decide (gateCheck tools shippedManifest rows now target = .ok ())
        commits := commits } = .ok st') ↔
      executeAt tools shippedManifest rows now st.currentPhase target commits = .ok () := by
  have hgate : transitionGateCheck tools.yq target
      { approval := decide (gateCheck tools shippedManifest rows now target = .ok ())
        commits := commits } = .ok () ↔
          gateCheck tools shippedManifest rows now target = .ok () := by
    unfold transitionGateCheck
    cases hg : phaseGate tools.yq target with
    | none => simp [gateCheck, shippedManifest_gate, hg]
    | some gate => simp
  simp only [transitionExecute_eq_ok_iff, transitionValidate_eq_ok_iff, hgate, executeAt_ok_iff,
    validateAt_ok_iff, shippedManifest_next]
  constructor
  · rintro ⟨_, phase, ⟨-, hphase, hne, hnext⟩, hcheck, hcommits, -⟩
    exact ⟨⟨phase, hphase, hne, hnext⟩, hcheck, hcommits⟩
  · rintro ⟨⟨phase, hphase, hne, hnext⟩, hcheck, hcommits⟩
    exact ⟨_, phase, ⟨trivial, hphase, hne, hnext⟩, hcheck, hcommits, rfl⟩

/-! ## The two answers -/

theorem readToken_ne_nil (a : Approval) (rest : List Char) :
    readToken (a.tokenText ++ '|' :: rest) ≠ [] := by
  unfold readToken Approval.tokenText
  cases a.token with
  | none => simp
  | some token =>
    obtain ⟨text, plain⟩ := token
    cases text with
    | nil => simp
    | cons c text =>
      have hc := plain c List.mem_cons_self
      simp only [List.mem_cons, not_or] at hc
      simp [hc.2.1, hc.2.2.1]

theorem liveApprovals_sorted_eq_nil {target : Phase} :
    (liveApprovals rows target now).insertionSort (fun a b => b.grantedAt ≤ a.grantedAt) = [] ↔
      ∀ a ∈ rows, ¬ a.Live target now := by
  rw [← List.length_eq_zero_iff, List.length_insertionSort, List.length_eq_zero_iff,
    liveApprovals, List.filter_eq_nil_iff]
  simp only [decide_eq_true_eq]

/-- The check finds no approval just when the target has a gate and no live approval of it is
recorded. -/
theorem gateCheck_missing_iff {target : Phase} :
    gateCheck tools m rows now target = .error .missingApproval ↔
      m.gate tools.yq target ≠ "" ∧ ∀ a ∈ rows, ¬ a.Live target now := by
  rw [← liveApprovals_sorted_eq_nil]
  unfold gateCheck approvalLine
  by_cases hgate : m.gate tools.yq target = ""
  · simp [hgate]
  · rw [if_neg hgate]
    cases (liveApprovals rows target now).insertionSort fun a b => b.grantedAt ≤ a.grantedAt with
    | nil => simp [hgate]
    | cons a sorted =>
      have htoken := readToken_ne_nil a ((a.expiresAt.map tools.timestampText).getD [])
      obtain ⟨c, token, hcons⟩ := List.exists_cons_of_ne_nil htoken
      refine iff_of_false ?_ (by simp)
      simp only [List.head?_cons, Option.map_some, Option.getD_some, hcons]
      split_ifs <;> simp

/-- `gate_status` and `transition_execute` agree about the step from a phase to its successor. -/
def GateAgreement (tools : Tools) (m : Manifest) (rows : List Approval) (now : Nat)
    (phase target : Phase) : Prop :=
  ∀ commits st, gateStatus tools m rows now (some phase) = some st →
    (st.satisfied = true →
      executeAt tools m rows now (some phase) target commits ≠ .error .missingApproval) ∧
    (executeAt tools m rows now (some phase) target commits = .error .missingApproval →
      st.satisfied = false)

/-- A satisfied gate lets the project into the next phase just when that phase has no gate or an
approval of its own; otherwise the two agree only while the gate of the present phase is short of
approvers. -/
theorem gate_agreement_iff {phase target : Phase}
    (hfirst : (m.next tools.yq phase).head? = some target) :
    GateAgreement tools m rows now phase target ↔
      phase = target ∨ m.gate tools.yq target = "" ∨ (∃ a ∈ rows, a.Live target now) ∨
        (¬ ungated tools m phase ∧
          gateCount tools m rows phase now < m.minApprovals tools.yq phase) := by
  have hnext : target ∈ m.next tools.yq phase := List.mem_of_head? hfirst
  have hrefused : ∀ commits, executeAt tools m rows now (some phase) target commits =
      .error .missingApproval ↔
        phase ≠ target ∧ m.gate tools.yq target ≠ "" ∧ ∀ a ∈ rows, ¬ a.Live target now := by
    intro commits
    rw [executeAt_missing_iff, gateCheck_missing_iff, validateAt_ok_iff]
    constructor
    · rintro ⟨⟨_, ⟨⟩, hne, -⟩, hmissing⟩
      exact ⟨hne, hmissing⟩
    · rintro ⟨hne, hmissing⟩
      exact ⟨⟨phase, rfl, hne, hnext⟩, hmissing⟩
  constructor
  · intro h
    by_contra hnot
    obtain ⟨hne, hgate, hlive, hshort⟩ : phase ≠ target ∧ m.gate tools.yq target ≠ "" ∧
        (∀ a ∈ rows, ¬ a.Live target now) ∧ (¬ ungated tools m phase →
          m.minApprovals tools.yq phase ≤ gateCount tools m rows phase now) := by
      simpa using hnot
    have hunsatisfied := (h true _ rfl).2 ((hrefused true).mpr ⟨hne, hgate, hlive⟩)
    have hneither := of_decide_eq_false hunsatisfied
    exact hneither (or_iff_not_imp_left.mpr hshort)
  · rintro h commits st hst
    obtain rfl := Option.some.inj hst
    have hboth : ¬ ((ungated tools m phase ∨
        m.minApprovals tools.yq phase ≤ gateCount tools m rows phase now) ∧
          executeAt tools m rows now (some phase) target commits = .error .missingApproval) := by
      rintro ⟨hsatisfied, hmissing⟩
      obtain ⟨hne, hgate, hlive⟩ := (hrefused commits).mp hmissing
      rcases h with heq | hopen | ⟨a, ha, halive⟩ | ⟨hgated, hshort⟩
      · exact hne heq
      · exact hgate hopen
      · exact hlive a ha halive
      · rcases hsatisfied with hungated | hcount
        · exact hgated hungated
        · omega
    refine ⟨fun hsatisfied hmissing => hboth ⟨of_decide_eq_true hsatisfied, hmissing⟩, ?_⟩
    intro hmissing
    exact decide_eq_false fun hsatisfied => hboth ⟨hsatisfied, hmissing⟩

end Check

/-- A host as it is set up at first: `approval.py` is not executable, and every token verifies. -/
def plainTools : Tools := { verify := fun _ _ => true, timestampText := fun _ => [] }

/-- With the approval of the next phase recorded, the two agree. -/
theorem gate_agreement_iff_approved :
    GateAgreement plainTools shippedManifest
      [{ phase := .planApproved, approver := "khash".toList, grantedAt := 1 }] 2
      .planInProgress .planApproved := by
  refine (gate_agreement_iff (by decide)).mpr (.inr (.inr (.inl ?_)))
  exact ⟨_, List.mem_singleton.mpr rfl, by decide⟩

/-- The phase in which the plan is written has no gate, and so is satisfied; the phase of the
approved plan has one, and nobody has approved. -/
theorem gate_status_satisfied_refused :
    ¬ ∀ (tools : Tools) (m : Manifest) (rows : List Approval) (now : Nat) (phase target : Phase),
      (m.next tools.yq phase).head? = some target →
        GateAgreement tools m rows now phase target := by
  intro h
  have hagree := h plainTools shippedManifest [] 0 .planInProgress .planApproved (by decide)
  have hmissing : executeAt plainTools shippedManifest [] 0 (some .planInProgress) .planApproved
      true = .error .missingApproval := by decide
  exact (hagree true _ rfl).1 (by decide) hmissing

end SpineFormal.Orchestrator
