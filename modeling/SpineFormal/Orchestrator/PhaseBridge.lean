import SpineFormal.Orchestrator.Gate
import SpineFormal.Orchestrator.PhaseHistory
import Mathlib.Data.List.Forall2

/-!
# The lifecycle bridge of the Hub

`advance_lifecycle_phase` records the approval of a gated phase and asks the
orchestrator's tools for the transition. Whatever they refuse, and whatever goes
wrong on the way, it then writes the phase itself.
-/

namespace SpineFormal.Orchestrator.Bridge

set_option autoImplicit false

structure Project extends ProjectRow where
  name : String
  status : ProjectStatus := .active
  approvals : List Approval := []

/-- The rows of `project`, in the order of their ids. -/
structure Projects where
  rows : List Project
  sorted : (rows.map fun p => p.id).Pairwise (· < ·)

/-- An `UPDATE` of the rows that `sel` picks. -/
def Projects.update (t : Projects) (sel : Project → Bool) (f : Project → Project)
    (hid : ∀ p, (f p).id = p.id) : Projects where
  rows := t.rows.map fun p => if sel p then f p else p
  sorted := by
    have hids : ∀ p : Project, (if sel p then f p else p).id = p.id := by
      intro p
      split_ifs
      · exact hid p
      · rfl
    rw [List.map_map]
    exact (List.map_congr_left fun p _ => hids p) ▸ t.sorted

def Project.enter (target : Phase) (p : Project) : Project := { p with currentPhase := target }

def Project.grant (a : Approval) (p : Project) : Project :=
  { p with approvals := p.approvals ++ [a] }

/-- `project_id`, with the number it spells when it is all digits and the UUID it denotes. -/
structure ProjectArg where
  text : String
  number : Option Nat := none
  uuid : Option String := none

/-- How the direct write reads it. -/
def ProjectArg.ref (arg : ProjectArg) : ProjectRef :=
  match arg.number with
  | some n => .id n
  | none => .uuid arg.text

/-- The rows that the `WHERE` of `_resolve_project` takes: by number, UUID or name, if active. -/
def ProjectArg.finds (arg : ProjectArg) (p : Project) : Bool :=
  (decide (arg.number = some p.id) || decide (arg.uuid = some p.projectUuid) ||
    decide (p.name = arg.text)) && decide (p.status = .active)

def Projects.resolveProject (t : Projects) (arg : ProjectArg) : Option Project :=
  t.rows.find? arg.finds

/-- The scripts' tools, and `repr` of Python. -/
structure Host extends Tools where
  repr : String → List Char

def phaseText : Phase → String
  | .intake => "intake"
  | .planInProgress => "plan_in_progress"
  | .planApproved => "plan_approved"
  | .buildInProgress => "build_in_progress"
  | .buildComplete => "build_complete"
  | .verifyInProgress => "verify_in_progress"
  | .verifyApprovedWithWarnings => "verify_approved_with_warnings"
  | .verifyApproved => "verify_approved"
  | .acceptance => "acceptance"
  | .released => "released"
  | .operate => "operate"
  | .retro => "retro"
  | .other id => id

def lower (text : List Char) : List Char := text.map Char.toLower

/-- `_phase_requires_gate`; an unreadable manifest has no gates. -/
def phaseRequiresGate (m : Manifest) (readable : Bool) (target : Phase) : Bool :=
  readable && decide (m.gate false target ≠ "" ∧ lower (m.gate false target).toList ≠ "null".toList)

structure AdvanceCall where
  project : ProjectArg
  target : Phase
  actor : String
  grantGate : Bool := false
  rationale : Option String := none

/-- What the input models of the two tools ask of their fields. -/
def AdvanceCall.valid (call : AdvanceCall) : Bool :=
  decide (call.project.text ≠ "" ∧ phaseText call.target ≠ "" ∧ call.actor ≠ "" ∧
    ∀ text ∈ call.rationale, text.length ≤ 4000)

/-- What `approval_grant` meets: whether the project can be looked up, the token if the key of the
vault signs one, whether the `INSERT` answers, and whether its row is there if it does not. -/
structure GrantAnswers where
  reads : Bool := true
  token : Option Token
  answers : Bool := true
  inserted : Bool := false

/-- A statement that `psql` runs answers, ends in an error, or takes too long. -/
inductive Query where
  | answers
  | fails
  | raises

/-- How `transition.sh` ends: by itself, with what else is on its standard error, or otherwise, its
transaction made or not. -/
inductive ScriptEnd where
  | exits (before after : List Char)
  | cut (message : List Char)
  | raises

structure AdvanceAnswers where
  reads : Query := .answers
  yamlReads : Bool := true
  /-- What `verify_token` finds wrong. -/
  tokenError : Option (List Char) := none
  phaseReads : Bool := true
  approvalsRead : Bool := true
  commits : Bool := true
  ending : ScriptEnd := .exits [] []

structure DirectAnswers where
  pool : Bool := true
  commits : Bool := true

structure BridgeAnswers where
  yamlReads : Bool := true
  grant : GrantAnswers
  advance : AdvanceAnswers := {}
  direct : DirectAnswers := {}

/-- What `phase_advance` says, or that an exception leaves it. -/
inductive Reply where
  | accepted
  | error (message : List Char)
  | raised

/-- The bridge is content: the phase is entered, or the text of the error has a `noop` in it. -/
def Reply.settles : Reply → Bool
  | .accepted => true
  | .error message => decide ("noop".toList <:+: lower message)
  | .raised => false

section Tools
variable (host : Host) (m : Manifest) (now : Nat) (call : AdvanceCall)

/-- The row that `approval_grant` inserts; `ttl_hours` is a week. -/
def grantedRow (token : Token) : Approval where
  phase := call.target
  approver := call.actor.toList
  token := some token
  grantedAt := now
  expiresAt := some (now + 168 * 3600)

/-- The approval that the call records, with the project that gets it. -/
def recordedApproval (a : GrantAnswers) (t : Projects) : Option (Nat × Approval) :=
  if call.valid && a.reads && (a.answers || a.inserted) then
    (t.resolveProject call.project).bind fun p =>
      a.token.map fun token => (p.id, grantedRow now call token)
  else none

def Projects.record (t : Projects) : Option (Nat × Approval) → Projects
  | none => t
  | some (id, a) => t.update (fun p => decide (p.id = id)) (Project.grant a) fun _ => rfl

/-- The token, unless the tool fails; it may have recorded the approval all the same. -/
def approvalGrant (a : GrantAnswers) (t : Projects) : Option Token × Projects :=
  (if call.valid && a.reads && a.answers && (t.resolveProject call.project).isSome then a.token
    else none,
   t.record (recordedApproval now call a t))

def projectNotFound : List Char :=
  "no active project for id/uuid/name=".toList ++ host.repr call.project.text

def tokenRefusal (token : Option Token) (a : AdvanceAnswers) : Option (List Char) :=
  if phaseRequiresGate m a.yamlReads call.target then
    match token with
    | none => some ("target phase ".toList ++ host.repr (phaseText call.target) ++
        " requires an approval token; none supplied".toList)
    | some _ => a.tokenError
  else none

/-- What `transition.sh` logs of a refusal. -/
def refusalText (p : Project) : Refusal → List Char
  | .projectNotFound => "project_not_found: no project row for id=".toList ++ Nat.toDigits 10 p.id
  | .noopTransition =>
    "noop_transition: project already in phase '".toList ++ (phaseText call.target).toList ++ ['\'']
  | .rejectedInvalid =>
    "rejected_invalid: phase '".toList ++ (phaseText p.currentPhase).toList ++
      "' cannot transition directly to '".toList ++ (phaseText call.target).toList ++ ['\'']
  | .missingApproval =>
    "rejected_gate: phase '".toList ++ (phaseText call.target).toList ++
      "' requires gate '".toList ++ (m.gate host.yq call.target).toList ++
      "' but no valid approval found".toList
  | .hmacFailed => "rejected_gate: approval token HMAC verification failed".toList
  | .dbError => "db_error: transition transaction failed for pid=".toList ++ Nat.toDigits 10 p.id

/-- `transition.sh execute` for the project. -/
def scriptExecute (a : AdvanceAnswers) (p : Project) : Except Refusal Unit :=
  executeAt host.toTools m (if a.approvalsRead then p.approvals else []) now
    (if a.phaseReads then some p.currentPhase else none) call.target a.commits

def scriptReply (a : AdvanceAnswers) (p : Project) : Reply :=
  match a.ending, scriptExecute host m now call a p with
  | .raises, _ => .raised
  | .cut message, _ => .error message
  | .exits _ _, .ok _ => .accepted
  | .exits before after, .error e => .error (before ++ refusalText host m call p e ++ after)

/-- The project that `phase_advance` hands to the script. -/
def handedOver (token : Option Token) (a : AdvanceAnswers) (t : Projects) : Except Reply Project :=
  if call.valid then
    match a.reads with
    | .raises => .error .raised
    | .fails => .error (.error (projectNotFound host call))
    | .answers =>
      match t.resolveProject call.project with
      | none => .error (.error (projectNotFound host call))
      | some p =>
        match tokenRefusal host m call token a with
        | some message => .error (.error message)
        | none => .ok p
  else .error .raised

def phaseAdvance (token : Option Token) (a : AdvanceAnswers) (t : Projects) : Reply × Projects :=
  match handedOver host m call token a t with
  | .error reply => (reply, t)
  | .ok p =>
    (scriptReply host m now call a p,
     match scriptExecute host m now call a p with
     | .ok _ => t.update (fun q => decide (q.id = p.id)) (Project.enter call.target) fun _ => rfl
     | .error _ => t)

/-- The `UPDATE` looks neither at the status, nor at the present phase, nor at an approval. -/
def fallbackAdvance (a : DirectAnswers) (t : Projects) : Bool × Projects :=
  if a.pool && a.commits && t.rows.any fun p => call.project.ref.names p.toProjectRow then
    (true, t.update (fun p => call.project.ref.names p.toProjectRow) (Project.enter call.target)
      fun _ => rfl)
  else (false, t)

def needsGate (a : BridgeAnswers) : Bool :=
  call.grantGate || phaseRequiresGate m a.yamlReads call.target

/-- The `if needs_gate:` part; `none` when it turns to the direct write. -/
def grantIfNeeded (a : BridgeAnswers) (t : Projects) : Option (Option Token) × Projects :=
  if needsGate m call a then
    let granted := approvalGrant now call a.grant t
    (granted.1.map some, granted.2)
  else (some none, t)

def advanceLifecyclePhase (a : BridgeAnswers) (t : Projects) : Bool × Projects :=
  match grantIfNeeded m now call a t with
  | (none, t) => fallbackAdvance call a.direct t
  | (some token, t) =>
    match phaseAdvance host m now call token a.advance t with
    | (reply, t) => if reply.settles then (true, t) else fallbackAdvance call a.direct t

end Tools

/-! ## What a call may do to a project -/

/-- The manifest has the target among the next phases or the rollbacks of the phase. -/
def Edge (m : Manifest) (phase target : Phase) : Prop :=
  ∃ d ∈ m.phases, d.id = phase ∧ (target ∈ d.next ∨ target ∈ d.rollbackTo)

instance (m : Manifest) (phase target : Phase) : Decidable (Edge m phase target) :=
  inferInstanceAs (Decidable (∃ d ∈ m.phases, _))

def Gated (m : Manifest) (target : Phase) : Prop := phaseRequiresGate m true target = true

/-- A phase that has changed was left along an edge, and a gated one entered on an approval. -/
def LawfulChange (m : Manifest) (now : Nat) (before after : Project) : Prop :=
  after.currentPhase ≠ before.currentPhase →
    Edge m before.currentPhase after.currentPhase ∧
      (Gated m after.currentPhase → ∃ a ∈ after.approvals, a.Live after.currentPhase now)

def Lawful (m : Manifest) (now : Nat) (before after : Projects) : Prop :=
  List.Forall₂ (LawfulChange m now) before.rows after.rows

section Law
variable (host : Host) (m : Manifest) (now : Nat) (call : AdvanceCall)

/-- The orchestrator's tools fail, or refuse with anything but a `noop`. -/
def ComesToDirectWrite (a : BridgeAnswers) (t : Projects) : Prop :=
  ∀ token ∈ (grantIfNeeded m now call a t).1,
    (phaseAdvance host m now call token a.advance (grantIfNeeded m now call a t).2).1.settles =
      false

/-- An approval of the target is recorded for the project, or the call itself records one. -/
def Approved (a : BridgeAnswers) (t : Projects) (p : Project) : Prop :=
  (∃ r ∈ p.approvals, r.Live call.target now) ∨
    needsGate m call a = true ∧ ∃ r, recordedApproval now call a.grant t = some (p.id, r)

/-- What the direct write needs of each project that it writes. -/
def DirectWriteLawful (a : BridgeAnswers) (t : Projects) : Prop :=
  ∀ p ∈ t.rows, call.project.ref.names p.toProjectRow = true →
    p.currentPhase = call.target ∨
      (Edge m p.currentPhase call.target ∧ (Gated m call.target → Approved m now call a t p))

end Law

section Steps
variable {host : Host} {m : Manifest} {now : Nat} {call : AdvanceCall} {t : Projects}

theorem edge_of_next {yq : Bool} {phase target : Phase} (h : target ∈ m.next yq phase) :
    Edge m phase target ∧ yq = false := by
  unfold Manifest.next Manifest.loadPhaseDef at h
  cases yq with
  | true => simp at h
  | false =>
    cases hfind : m.phases.find? fun d => decide (d.id = phase) with
    | none => simp [hfind] at h
    | some d =>
      have hid : d.id = phase := by simpa using List.find?_some hfind
      exact ⟨⟨d, List.mem_of_find?_eq_some hfind, hid, .inl (by simpa [hfind] using h)⟩, rfl⟩

theorem Gated.gate_ne_empty {target : Phase} (h : Gated m target) : m.gate false target ≠ "" := by
  simp only [Gated, phaseRequiresGate, Bool.true_and, decide_eq_true_eq] at h
  exact h.1

theorem scriptExecute_ok {a : AdvanceAnswers} {p : Project}
    (h : scriptExecute host m now call a p = .ok ()) :
    Edge m p.currentPhase call.target ∧
      (Gated m call.target → ∃ r ∈ p.approvals, r.Live call.target now) := by
  obtain ⟨hvalid, hgate, -⟩ := executeAt_ok_iff.mp h
  obtain ⟨phase, hread, -, hnext⟩ := validateAt_ok_iff.mp hvalid
  split_ifs at hread
  obtain rfl := Option.some.inj hread
  obtain ⟨hedge, hyq⟩ := edge_of_next hnext
  refine ⟨hedge, fun hgated => ?_⟩
  by_contra hnone
  have hmissing : gateCheck host.toTools m (if a.approvalsRead then p.approvals else []) now
      call.target = .error .missingApproval := by
    refine gateCheck_missing_iff.mpr ⟨hyq ▸ hgated.gate_ne_empty, ?_⟩
    intro r hr hlive
    split_ifs at hr
    · exact hnone ⟨r, hr, hlive⟩
    · cases hr
  rw [hmissing] at hgate
  cases hgate

theorem handedOver_mem {token : Option Token} {a : AdvanceAnswers} {p : Project}
    (h : handedOver host m call token a t = .ok p) : p ∈ t.rows := by
  unfold handedOver at h
  split_ifs at h
  split at h
  · cases h
  · cases h
  · split at h
    · cases h
    · rename_i q hfind
      split at h
      · cases h
      · obtain rfl := Except.ok.inj h
        exact List.mem_of_find?_eq_some hfind

theorem Projects.eq_of_id {p q : Project} (hp : p ∈ t.rows) (hq : q ∈ t.rows) (h : p.id = q.id) :
    p = q := by
  have hdistinct : (t.rows.map fun p => p.id).Nodup := t.sorted.imp fun hlt => Nat.ne_of_lt hlt
  exact List.inj_on_of_nodup_map hdistinct hp hq h

/-- What the script makes of a project is nothing, or a lawful change. -/
theorem phaseAdvance_rows (token : Option Token) (a : AdvanceAnswers) :
    ∃ f : Project → Project, (phaseAdvance host m now call token a t).2.rows = t.rows.map f ∧
      ∀ p ∈ t.rows, f p = p ∨ f p = p.enter call.target ∧ Edge m p.currentPhase call.target ∧
        (Gated m call.target → ∃ r ∈ p.approvals, r.Live call.target now) := by
  unfold phaseAdvance
  cases hover : handedOver host m call token a t with
  | error reply => exact ⟨id, (List.map_id _).symm, fun p _ => .inl rfl⟩
  | ok p =>
    cases hrun : scriptExecute host m now call a p with
    | error e => exact ⟨id, by simp [hrun], fun p _ => .inl rfl⟩
    | ok _ =>
      refine ⟨fun q => if q.id = p.id then q.enter call.target else q, ?_, fun q hq => ?_⟩
      · simp [hrun, Projects.update]
      · dsimp only
        split_ifs with hid
        · obtain rfl := Projects.eq_of_id hq (handedOver_mem hover) hid
          exact .inr ⟨rfl, scriptExecute_ok hrun⟩
        · exact .inl rfl

theorem fallbackAdvance_rows (a : DirectAnswers) :
    (fallbackAdvance call a t).2.rows = t.rows.map fun p =>
      if a.pool = true ∧ a.commits = true ∧ call.project.ref.names p.toProjectRow = true then
        p.enter call.target else p := by
  unfold fallbackAdvance
  split_ifs with heffect
  · simp only [Bool.and_eq_true] at heffect
    simp [Projects.update, heffect.1.1, heffect.1.2]
  · refine ((List.map_congr_left fun p hp => if_neg ?_).trans (List.map_id _)).symm
    rintro ⟨hpool, hcommits, hnames⟩
    apply heffect
    rw [hpool, hcommits]
    exact List.any_eq_true.mpr ⟨p, hp, hnames⟩

theorem recordedApproval_live {a : GrantAnswers} {id : Nat} {r : Approval}
    (h : recordedApproval now call a t = some (id, r)) : r.Live call.target now := by
  unfold recordedApproval at h
  split_ifs at h
  obtain ⟨p, -, h⟩ := Option.bind_eq_some_iff.mp h
  obtain ⟨token, -, h⟩ := Option.map_eq_some_iff.mp h
  cases h
  refine ⟨rfl, rfl, ?_⟩
  rintro _ ⟨⟩
  omega

theorem grantIfNeeded_rows (a : BridgeAnswers) :
    ∃ f : Project → Project, (grantIfNeeded m now call a t).2.rows = t.rows.map f ∧
      ∀ p, (f p).toProjectRow = p.toProjectRow ∧
        ((∃ r ∈ (f p).approvals, r.Live call.target now) ↔ Approved m now call a t p) := by
  unfold grantIfNeeded Approved
  by_cases hneeds : needsGate m call a = true
  · rw [if_pos hneeds]
    simp only [hneeds, true_and, approvalGrant]
    cases hrecord : recordedApproval now call a.grant t with
    | none => exact ⟨id, (List.map_id _).symm, fun p => ⟨rfl, by simp⟩⟩
    | some entry =>
      obtain ⟨target, r⟩ := entry
      refine ⟨fun p => if p.id = target then p.grant r else p, ?_, fun p => ?_⟩
      · simp [Projects.record, Projects.update]
      · dsimp only
        split_ifs with hid
        · refine ⟨rfl, iff_of_true ?_ (.inr ⟨r, by rw [hid]⟩)⟩
          have hmem : r ∈ p.approvals ++ [r] :=
            List.mem_append_right _ (List.mem_singleton.mpr rfl)
          exact ⟨r, hmem, recordedApproval_live hrecord⟩
        · refine ⟨rfl, (or_iff_left ?_).symm⟩
          rintro ⟨_, heq⟩
          cases heq
          exact hid rfl
  · rw [if_neg hneeds]
    exact ⟨id, (List.map_id _).symm, fun p => ⟨rfl, by simp [hneeds]⟩⟩

end Steps

/-! ## When a call keeps to the manifest -/

/-- A project after the orchestrator's part of a call. -/
structure Kept (m : Manifest) (now : Nat) (call : AdvanceCall) (a : BridgeAnswers) (t : Projects)
    (p q : Project) : Prop where
  named : call.project.ref.names q.toProjectRow = call.project.ref.names p.toProjectRow
  approved : (∃ r ∈ q.approvals, r.Live call.target now) ↔ Approved m now call a t p
  phase : q.currentPhase = p.currentPhase ∨ q.currentPhase = call.target ∧
    Edge m p.currentPhase call.target ∧ (Gated m call.target → Approved m now call a t p)

section Law
variable {host : Host} {m : Manifest} {now : Nat} {call : AdvanceCall} {a : BridgeAnswers}
  {t t' : Projects} {p q : Project} {f : Project → Project}

theorem Kept.lawful (h : Kept m now call a t p q) : LawfulChange m now p q := by
  intro hchanged
  obtain hsame | ⟨htarget, hedge, hgate⟩ := h.phase
  · exact absurd hsame hchanged
  · rw [htarget]
    exact ⟨hedge, fun hgated => h.approved.mpr (hgate hgated)⟩

theorem Kept.lawful_enter_iff (h : Kept m now call a t p q) :
    LawfulChange m now p (q.enter call.target) ↔ p.currentPhase = call.target ∨
      (Edge m p.currentPhase call.target ∧ (Gated m call.target → Approved m now call a t p)) := by
  rw [← h.approved, or_iff_not_imp_left]
  exact imp_congr_left (not_congr eq_comm)

theorem lawful_of_kept (hrows : t'.rows = t.rows.map f)
    (hkept : ∀ p ∈ t.rows, Kept m now call a t p (f p)) : Lawful m now t t' := by
  rw [Lawful, hrows, List.forall₂_map_right_iff, List.forall₂_same]
  exact fun p hp => (hkept p hp).lawful

theorem lawful_fallback_iff (hrows : t'.rows = t.rows.map f)
    (hkept : ∀ p ∈ t.rows, Kept m now call a t p (f p)) :
    Lawful m now t (fallbackAdvance call a.direct t').2 ↔
      (a.direct.pool = true → a.direct.commits = true → DirectWriteLawful m now call a t) := by
  rw [Lawful, fallbackAdvance_rows, hrows, List.map_map, List.forall₂_map_right_iff,
    List.forall₂_same]
  have hrow : ∀ p ∈ t.rows, LawfulChange m now p (if a.direct.pool = true ∧
      a.direct.commits = true ∧ call.project.ref.names (f p).toProjectRow = true then
        (f p).enter call.target else f p) ↔
      (a.direct.pool = true → a.direct.commits = true →
        call.project.ref.names p.toProjectRow = true → p.currentPhase = call.target ∨
          (Edge m p.currentPhase call.target ∧
            (Gated m call.target → Approved m now call a t p))) := by
    intro p hp
    rw [(hkept p hp).named]
    split_ifs with heffect
    · obtain ⟨hpool, hcommits, hnames⟩ := heffect
      simp [hpool, hcommits, hnames, (hkept p hp).lawful_enter_iff]
    · refine iff_of_true (hkept p hp).lawful fun hpool hcommits hnames => ?_
      exact absurd ⟨hpool, hcommits, hnames⟩ heffect
  constructor
  · intro h hpool hcommits p hp
    exact (hrow p hp).mp (h p hp) hpool hcommits
  · intro h p hp
    exact (hrow p hp).mpr fun hpool hcommits => h hpool hcommits p hp

/-- The changes that a call makes are edges of the manifest with their approvals just when it does
not come to the direct write, or that write has no effect, or finds each project that it writes in
the target phase or before an edge to it that is approved. -/
theorem phase_change_lawful_iff :
    Lawful m now t (advanceLifecyclePhase host m now call a t).2 ↔
      (ComesToDirectWrite host m now call a t → a.direct.pool = true → a.direct.commits = true →
        DirectWriteLawful m now call a t) := by
  obtain ⟨f, hrows, hf⟩ : ∃ f : Project → Project, _ := grantIfNeeded_rows a
  unfold advanceLifecyclePhase ComesToDirectWrite
  cases hgrant : grantIfNeeded m now call a t with | mk granted t₁ =>
  rw [hgrant] at hrows
  cases granted with
  | none =>
    have hkept : ∀ p ∈ t.rows, Kept m now call a t p (f p) := fun p _ =>
      ⟨by rw [(hf p).1], (hf p).2, .inl (by rw [(hf p).1])⟩
    simpa using lawful_fallback_iff hrows hkept
  | some token =>
    obtain ⟨g, hmoved, hg⟩ : ∃ g : Project → Project,
        (phaseAdvance host m now call token a.advance t₁).2.rows = t₁.rows.map g ∧ _ :=
      phaseAdvance_rows token a.advance
    have hrows' : (phaseAdvance host m now call token a.advance t₁).2.rows =
        t.rows.map (g ∘ f) := by
      rw [hmoved, hrows, List.map_map]
    have hkept : ∀ p ∈ t.rows, Kept m now call a t p ((g ∘ f) p) := by
      intro p hp
      obtain ⟨hrow, happroved⟩ := hf p
      rcases hg (f p) (hrows ▸ List.mem_map_of_mem hp) with heq | ⟨heq, hedge, hgate⟩
      · rw [Function.comp_apply, heq]
        exact ⟨by rw [hrow], happroved, .inl (by rw [hrow])⟩
      · rw [Function.comp_apply, heq]
        refine ⟨by rw [← hrow]; rfl, happroved, .inr ⟨rfl, ?_, fun hgated => ?_⟩⟩
        · rw [← hrow]
          exact hedge
        · exact happroved.mp (hgate hgated)
    cases hsettles : (phaseAdvance host m now call token a.advance t₁).1.settles with
    | true => simpa [hsettles] using lawful_of_kept hrows' hkept
    | false => simpa [hsettles] using lawful_fallback_iff hrows' hkept

end Law

/-! ## A jump over the plan -/

def plainHost : Host := { plainTools with repr := fun text => text.toList }

def intakeProject : Project :=
  { id := 7, projectUuid := "0190-aa", currentPhase := .intake, name := "ledger" }

def oneProject : Projects := ⟨[intakeProject], List.pairwise_singleton _ _⟩

def jumpToBuild : AdvanceCall :=
  { project := { text := "0190-aa", uuid := some "0190-aa" }, target := .buildInProgress,
    actor := "hub" }

/-- `transition.sh` refuses to go from the intake to the build, and the bridge writes the phase. -/
theorem advance_lifecycle_phase_jumps :
    ¬ ∀ (host : Host) (now : Nat) (call : AdvanceCall) (a : BridgeAnswers) (t : Projects),
      Lawful shippedManifest now t (advanceLifecyclePhase host shippedManifest now call a t).2 := by
  intro h
  have hlawful := h plainHost 0 jumpToBuild { grant := { token := none } } oneProject
  have hphases : (advanceLifecyclePhase plainHost shippedManifest 0 jumpToBuild
      { grant := { token := none } } oneProject).2.rows.map (fun p => p.currentPhase) =
        [.buildInProgress] := by decide +kernel
  obtain ⟨q, _, hq, -, hrows⟩ := List.forall₂_cons_left_iff.mp hlawful
  have hphase : q.currentPhase = .buildInProgress := by
    rw [hrows] at hphases
    exact (List.cons.inj hphases).1
  have hchanged : q.currentPhase ≠ intakeProject.currentPhase := by
    rw [hphase]
    decide
  have hedge := (hq hchanged).1
  rw [hphase] at hedge
  revert hedge
  decide

end SpineFormal.Orchestrator.Bridge
