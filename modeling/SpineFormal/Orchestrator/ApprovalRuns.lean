import SpineFormal.Base.Run
import SpineFormal.Orchestrator.Gate

/-!
# Approvals across rollbacks

The approval that a gate check accepts may have been recorded before the project
was rolled back out of the gated phase. Of the three ways to roll back only
`rollback_project` tries to expire approvals, in a transaction of its own after
the move, and only those granted since the target was last entered.
-/

namespace SpineFormal.Orchestrator

set_option autoImplicit false

/-- An approval, and whether the project was rolled back out of its phase since. -/
structure Recorded where
  approval : Approval
  outlived : Bool := false

/-- One project as the approvals and the rollbacks see it. -/
structure GatedProject where
  now : Nat := 0
  currentPhase : Option Phase
  blocked : Bool := false
  /-- `phase_history`: what was entered when. -/
  entries : List (Phase × Nat) := []
  rows : List Recorded := []
  /-- A gate check was satisfied by an approval from before a rollback. -/
  reused : Bool := false

/-- `SPINE_ROLLBACK_RATIONALE_MIN`. -/
def rollbackRationaleMin : Nat := 8

/-- What is answered to a rollback: whether the actor may, whether the move commits, and whether the
statement that expires approvals goes through. -/
structure RollbackAnswers where
  capable : Bool := true
  commits : Bool := true
  cleanup : Bool := true

inductive ProjectEvent where
  | tick (seconds : Nat)
  | record (phase : Phase) (approver : List Char) (decision : ApprovalDecision)
      (token : Option Token) (expiresAt : Option Nat)
  | revoke (row : Nat)
  | execute (target : Phase) (commits : Bool)
  | rollbackProject (target : Phase) (rationale : List Char) (answers : RollbackAnswers)
  | gateReject (rejector reason : List Char) (commits : Bool)
  | gateRequestChanges (reviewer notes : List Char) (commits : Bool)

section Steps
variable (tools : Tools) (m : Manifest)

/-- The approval that a gate check reads. -/
def chosenApproval (rows : List Recorded) (target : Phase) (now : Nat) : Option Recorded :=
  ((rows.filter fun r => decide (r.approval.Live target now)).insertionSort fun a b =>
    b.approval.grantedAt ≤ a.approval.grantedAt).head?

/-- What a rollback out of a phase makes of the approvals of that phase. -/
def Recorded.leave (phase : Phase) (r : Recorded) : Recorded :=
  if r.approval.phase = phase then { r with outlived := true } else r

namespace GatedProject
variable (p : GatedProject)

def enter (target : Phase) : GatedProject :=
  { p with currentPhase := some target, entries := p.entries ++ [(target, p.now)] }

def insert (phase : Phase) (approver : List Char) (decision : ApprovalDecision)
    (token : Option Token) (expiresAt : Option Nat) : GatedProject :=
  { p with rows := p.rows ++ [⟨⟨phase, approver, decision, token, p.now, expiresAt⟩, false⟩] }

/-- `transition_rollback`, when it makes the move. -/
def rollBack (target : Phase) (rationale : List Char) (commits : Bool) : Option GatedProject :=
  match p.currentPhase with
  | none => none
  | some phase =>
    if rationale ≠ [] ∧ target ∈ m.rollbackTo tools.yq phase ∧ commits = true then
      some ({ p with rows := p.rows.map (Recorded.leave phase) }.enter target)
    else none

/-- When the target was last entered; the epoch, if never. -/
def targetEntryTs (target : Phase) : Nat :=
  ((p.entries.filter fun e => decide (e.1 = target)).map Prod.snd).foldl max 0

/-- The `UPDATE` that expires the approvals granted since. -/
def expireSince (ts : Nat) : GatedProject :=
  { p with rows := p.rows.map fun r =>
      if r.approval.Live r.approval.phase p.now ∧ ts ≤ r.approval.grantedAt then
        { r with approval := { r.approval with expiresAt := some p.now } }
      else r }

def rollbackProject (target : Phase) (rationale : List Char) (a : RollbackAnswers) : GatedProject :=
  if rollbackRationaleMin ≤ rationale.length ∧ a.capable = true then
    match p.rollBack tools m target rationale a.commits with
    | none => p
    | some p' => if a.cleanup then p'.expireSince (p.targetEntryTs target) else p'
  else p

/-- The first phase of `rollback_to`, which `gate_reject` and `gate_request_changes` go back to. -/
def rollbackTarget : Option Phase :=
  p.currentPhase.bind fun phase => (m.rollbackTo tools.yq phase).head?

def gateReject (rejector reason : List Char) (commits : Bool) : GatedProject :=
  match p.currentPhase with
  | none => p
  | some phase =>
    if rejector = [] ∨ reason = [] then p
    else
      let p := p.insert phase rejector .rejected none none
      match (p.rollbackTarget tools m).bind fun rb => p.rollBack tools m rb reason commits with
      | some p' => p'
      | none => { p with blocked := true }

def requestChangesRationale (reviewer : List Char) : List Char :=
  "request-changes by ".toList ++ reviewer

/-- A phase without `rollback_to` would go back to a name made of its own, which no list holds. -/
def gateRequestChanges (reviewer notes : List Char) (commits : Bool) : GatedProject :=
  match p.currentPhase with
  | none => p
  | some phase =>
    if reviewer = [] ∨ notes = [] then p
    else
      let p := p.insert phase reviewer .requestChanges none none
      ((p.rollbackTarget tools m).bind fun rb =>
        p.rollBack tools m rb (requestChangesRationale reviewer) commits).getD p

/-- A transition enters the target, and remembers whether an outlived approval let it in. -/
def execute (target : Phase) (commits : Bool) : GatedProject :=
  if executeAt tools m (p.rows.map Recorded.approval) p.now p.currentPhase target commits = .ok ()
  then
    { p with
      reused := p.reused || decide (m.gate tools.yq target ≠ "" ∧
        ∃ r ∈ chosenApproval p.rows target p.now, r.outlived = true) }.enter target
  else p

def revoke (row : Nat) : GatedProject :=
  match p.rows[row]? with
  | none => p
  | some r =>
    { p with rows :=
        p.rows.set row { r with approval := { r.approval with expiresAt := some p.now } } }

def step : ProjectEvent → GatedProject
  | .tick seconds => { p with now := p.now + seconds }
  | .record phase approver decision token expiresAt =>
    p.insert phase approver decision token expiresAt
  | .revoke row => p.revoke row
  | .execute target commits => p.execute tools m target commits
  | .rollbackProject target rationale a => p.rollbackProject tools m target rationale a
  | .gateReject rejector reason commits => p.gateReject tools m rejector reason commits
  | .gateRequestChanges reviewer notes commits =>
    p.gateRequestChanges tools m reviewer notes commits

end GatedProject
end Steps

/-! ## Outlived approvals -/

/-- The move out of the phase is made. -/
def GatedProject.Moves (p : GatedProject) (tools : Tools) (m : Manifest) (target : Option Phase)
    (rationale : List Char) (commits : Bool) : Prop :=
  ∃ rb ∈ target, (p.rollBack tools m rb rationale commits).isSome = true

/-- Every live approval of the phase that a rollback leaves is expired by it: the statement goes
through, and the approval was granted since the target was last entered. The rollbacks of the gate
expire none. -/
def Expires (tools : Tools) (m : Manifest) (p : GatedProject) : ProjectEvent → Prop
  | .rollbackProject target rationale a =>
    rollbackRationaleMin ≤ rationale.length → a.capable = true →
      p.Moves tools m (some target) rationale a.commits →
        ∀ r ∈ p.rows, r.approval.Live r.approval.phase p.now →
          p.currentPhase = some r.approval.phase →
            a.cleanup = true ∧ p.targetEntryTs target ≤ r.approval.grantedAt
  | .gateReject rejector reason commits =>
    rejector ≠ [] → reason ≠ [] → p.Moves tools m (p.rollbackTarget tools m) reason commits →
      ∀ r ∈ p.rows, r.approval.Live r.approval.phase p.now →
        p.currentPhase ≠ some r.approval.phase
  | .gateRequestChanges reviewer notes commits =>
    reviewer ≠ [] → notes ≠ [] → p.Moves tools m (p.rollbackTarget tools m)
        (GatedProject.requestChangesRationale reviewer) commits →
      ∀ r ∈ p.rows, r.approval.Live r.approval.phase p.now →
        p.currentPhase ≠ some r.approval.phase
  | _ => True

instance (p : GatedProject) (tools : Tools) (m : Manifest) (target : Option Phase)
    (rationale : List Char) (commits : Bool) :
    Decidable (p.Moves tools m target rationale commits) := by
  unfold GatedProject.Moves
  infer_instance

instance (tools : Tools) (m : Manifest) (p : GatedProject) (e : ProjectEvent) :
    Decidable (Expires tools m p e) := by
  cases e <;> unfold Expires <;> infer_instance

/-- No approval from before a rollback out of its phase is live. -/
def GatedProject.Spent (p : GatedProject) : Prop :=
  ∀ r ∈ p.rows, r.outlived = true → ¬ r.approval.Live r.approval.phase p.now

theorem Approval.Live.earlier {a : Approval} {phase : Phase} {now later : Nat} (hle : now ≤ later)
    (h : a.Live phase later) : a.Live phase now :=
  ⟨h.1, h.2.1, fun t ht => Nat.lt_of_le_of_lt hle (h.2.2 t ht)⟩

theorem chosenApproval_live {rows : List Recorded} {target : Phase} {now : Nat} {r : Recorded}
    (h : r ∈ chosenApproval rows target now) : r ∈ rows ∧ r.approval.Live target now := by
  have hr := List.mem_of_head? h
  rw [List.mem_insertionSort, List.mem_filter] at hr
  exact ⟨hr.1, of_decide_eq_true hr.2⟩

/-- It is the row whose token the gate check reads. -/
theorem approvalLine_eq_chosen (tools : Tools) (rows : List Recorded) (target : Phase)
    (now : Nat) : approvalLine tools (rows.map Recorded.approval) target now =
      (chosenApproval rows target now).map fun r => r.approval.tokenText ++
        '|' :: ((r.approval.expiresAt.map tools.timestampText).getD []) := by
  have hsort := List.map_insertionSort
    (r := fun a b : Recorded => b.approval.grantedAt ≤ a.approval.grantedAt)
    (s := fun a b : Approval => b.grantedAt ≤ a.grantedAt) Recorded.approval
    (rows.filter fun r => decide (r.approval.Live target now)) fun _ _ _ _ => Iff.rfl
  have hfilter : liveApprovals (rows.map Recorded.approval) target now =
      (rows.filter fun r => decide (r.approval.Live target now)).map Recorded.approval :=
    List.filter_map
  unfold approvalLine chosenApproval
  rw [hfilter, ← hsort, List.head?_map, Option.map_map]
  rfl

namespace GatedProject
variable {tools : Tools} {m : Manifest} {p : GatedProject}

theorem Spent.insert (h : p.Spent) (phase : Phase) (approver : List Char)
    (decision : ApprovalDecision) (token : Option Token) (expiresAt : Option Nat) :
    (p.insert phase approver decision token expiresAt).Spent := by
  intro r hr houtlived
  rcases List.mem_append.mp hr with hr | hr
  · exact h r hr houtlived
  · rw [List.mem_singleton.mp hr] at houtlived
    cases houtlived

theorem Spent.revoke (h : p.Spent) (row : Nat) : (p.revoke row).Spent := by
  unfold GatedProject.revoke
  split
  · exact h
  · intro r hr houtlived
    rcases List.mem_or_eq_of_mem_set hr with hr | rfl
    · exact h r hr houtlived
    · rintro ⟨-, -, hlive⟩
      exact Nat.lt_irrefl _ (hlive _ rfl)

theorem rollBack_eq_some {p' : GatedProject} {target : Phase} {rationale : List Char}
    {commits : Bool} (h : p.rollBack tools m target rationale commits = some p') :
    ∃ phase, p.currentPhase = some phase ∧
      p' = { p with rows := p.rows.map (Recorded.leave phase) }.enter target := by
  unfold rollBack at h
  split at h
  · cases h
  · rename_i phase hphase
    split_ifs at h
    exact ⟨phase, hphase, (Option.some.inj h).symm⟩

/-- A row that is outlived after the move was so before, or is of the phase that was left. -/
theorem mem_leave {phase : Phase} {r : Recorded}
    (hr : r ∈ p.rows.map (Recorded.leave phase)) :
    ∃ r₀ ∈ p.rows, r.approval = r₀.approval ∧
      (r.outlived = true → r₀.outlived = true ∨ r₀.approval.phase = phase) := by
  obtain ⟨r₀, hr₀, rfl⟩ := List.mem_map.mp hr
  refine ⟨r₀, hr₀, ?_, ?_⟩
  · unfold Recorded.leave
    split_ifs <;> rfl
  · intro houtlived
    unfold Recorded.leave at houtlived
    split_ifs at houtlived with heq
    · exact .inr heq
    · exact .inl houtlived

theorem Spent.rollBack (h : p.Spent) {p' : GatedProject} {target : Phase} {rationale : List Char}
    {commits : Bool} (hmove : p.rollBack tools m target rationale commits = some p')
    (hdead : ∀ r ∈ p.rows, r.approval.Live r.approval.phase p.now →
      p.currentPhase ≠ some r.approval.phase) : p'.Spent := by
  obtain ⟨phase, hphase, rfl⟩ := rollBack_eq_some hmove
  intro r hr houtlived hlive
  obtain ⟨r₀, hr₀, happroval, hsince⟩ := mem_leave hr
  rw [happroval] at hlive
  rcases hsince houtlived with hold | rfl
  · exact h r₀ hr₀ hold hlive
  · exact hdead r₀ hr₀ hlive hphase

/-- The statement of `rollback_project` expires what the move outlives. -/
theorem Spent.rollBack_expireSince (h : p.Spent) {p' : GatedProject} {target : Phase}
    {rationale : List Char} {commits : Bool} {ts : Nat}
    (hmove : p.rollBack tools m target rationale commits = some p')
    (hsince : ∀ r ∈ p.rows, r.approval.Live r.approval.phase p.now →
      p.currentPhase = some r.approval.phase → ts ≤ r.approval.grantedAt) :
    (p'.expireSince ts).Spent := by
  obtain ⟨phase, hphase, rfl⟩ := rollBack_eq_some hmove
  intro r hr houtlived hlive
  obtain ⟨r', hr', rfl⟩ := List.mem_map.mp hr
  obtain ⟨r₀, hr₀, happroval, hleft⟩ := mem_leave hr'
  split_ifs at houtlived hlive with hexpired
  · exact Nat.lt_irrefl _ (hlive.2.2 _ rfl)
  · have hlive₀ : r₀.approval.Live r₀.approval.phase p.now := happroval ▸ hlive
    rcases hleft houtlived with hold | rfl
    · exact h r₀ hr₀ hold hlive₀
    · apply hexpired
      refine ⟨hlive, ?_⟩
      rw [happroval]
      exact hsince r₀ hr₀ hlive₀ hphase

/-- What every run keeps: no outlived approval is live, and none has satisfied a check. -/
structure Kept (p : GatedProject) : Prop where
  spent : p.Spent
  fresh : p.reused = false

theorem rollBack_reused {p' : GatedProject} {target : Phase} {rationale : List Char}
    {commits : Bool} (h : p.rollBack tools m target rationale commits = some p') :
    p'.reused = p.reused := by
  obtain ⟨phase, -, rfl⟩ := rollBack_eq_some h
  rfl

theorem rollBack_insert_isSome (target phase : Phase) (rationale approver : List Char)
    (commits : Bool) (decision : ApprovalDecision) :
    ((p.insert phase approver decision none none).rollBack tools m target rationale
      commits).isSome = (p.rollBack tools m target rationale commits).isSome := by
  unfold rollBack insert
  cases p.currentPhase with
  | none => rfl
  | some phase =>
    dsimp only
    split_ifs <;> rfl

theorem Kept.execute (h : p.Kept) (target : Phase) (commits : Bool) :
    (p.execute tools m target commits).Kept := by
  unfold GatedProject.execute
  split_ifs
  · refine ⟨h.spent, ?_⟩
    have hchosen : ¬ (m.gate tools.yq target ≠ "" ∧
        ∃ r ∈ chosenApproval p.rows target p.now, r.outlived = true) := by
      rintro ⟨-, r, hr, houtlived⟩
      obtain ⟨hmem, hlive⟩ := chosenApproval_live hr
      exact h.spent r hmem houtlived (hlive.1.symm ▸ hlive)
    exact Bool.or_eq_false_iff.mpr ⟨h.fresh, decide_eq_false hchosen⟩
  · exact h

theorem Kept.rollbackProject (h : p.Kept) {target : Phase} {rationale : List Char}
    {a : RollbackAnswers} (hexpires : Expires tools m p (.rollbackProject target rationale a)) :
    (p.rollbackProject tools m target rationale a).Kept := by
  unfold GatedProject.rollbackProject
  by_cases hallowed : rollbackRationaleMin ≤ rationale.length ∧ a.capable = true
  · rw [if_pos hallowed]
    cases hmove : p.rollBack tools m target rationale a.commits with
    | none => exact h
    | some p' =>
      have hcovered := hexpires hallowed.1 hallowed.2 ⟨target, rfl, Option.isSome_of_eq_some hmove⟩
      have hfresh : p'.reused = false := (rollBack_reused hmove).trans h.fresh
      dsimp only
      split_ifs with hcleanup
      · refine ⟨h.spent.rollBack_expireSince hmove ?_, hfresh⟩
        exact fun r hr hlive hphase => (hcovered r hr hlive hphase).2
      · refine ⟨h.spent.rollBack hmove ?_, hfresh⟩
        exact fun r hr hlive hphase => hcleanup (hcovered r hr hlive hphase).1
  · rw [if_neg hallowed]
    exact h

/-- The two rollbacks of the gate: a row of the refusal, then the move if it can be made. -/
theorem Kept.insert_rollBack (h : p.Kept) {phase : Phase} {approver rationale : List Char}
    {decision : ApprovalDecision} {commits : Bool} {p' : GatedProject}
    (hrefusal : decision ≠ .approved)
    (hexpires : p.Moves tools m (p.rollbackTarget tools m) rationale commits →
      ∀ r ∈ p.rows, r.approval.Live r.approval.phase p.now →
        p.currentPhase ≠ some r.approval.phase)
    (hmove : ((p.rollbackTarget tools m).bind fun rb =>
      (p.insert phase approver decision none none).rollBack tools m rb rationale commits) =
        some p') : p'.Kept := by
  obtain ⟨rb, hrb, hmove⟩ := Option.bind_eq_some_iff.mp hmove
  have hmoves : p.Moves tools m (p.rollbackTarget tools m) rationale commits := by
    refine ⟨rb, hrb, ?_⟩
    rw [← rollBack_insert_isSome rb phase rationale approver commits decision]
    exact Option.isSome_of_eq_some hmove
  refine ⟨(h.spent.insert phase approver decision none none).rollBack hmove ?_,
    (rollBack_reused hmove).trans h.fresh⟩
  intro r hr hlive
  rcases List.mem_append.mp hr with hr | hr
  · exact hexpires hmoves r hr hlive
  · rw [List.mem_singleton.mp hr] at hlive
    exact absurd hlive.2.1 hrefusal

theorem Kept.gateReject (h : p.Kept) {rejector reason : List Char} {commits : Bool}
    (hexpires : Expires tools m p (.gateReject rejector reason commits)) :
    (p.gateReject tools m rejector reason commits).Kept := by
  unfold GatedProject.gateReject
  split
  · exact h
  · rename_i phase _
    split_ifs with hempty
    · exact h
    · obtain ⟨hrejector, hreason⟩ := not_or.mp hempty
      dsimp only
      split
      · rename_i p' hmove
        exact h.insert_rollBack (by decide) (hexpires hrejector hreason) hmove
      · exact ⟨h.spent.insert phase rejector .rejected none none, h.fresh⟩

theorem Kept.gateRequestChanges (h : p.Kept) {reviewer notes : List Char} {commits : Bool}
    (hexpires : Expires tools m p (.gateRequestChanges reviewer notes commits)) :
    (p.gateRequestChanges tools m reviewer notes commits).Kept := by
  unfold GatedProject.gateRequestChanges
  split
  · exact h
  · rename_i phase _
    split_ifs with hempty
    · exact h
    · obtain ⟨hreviewer, hnotes⟩ := not_or.mp hempty
      dsimp only
      cases hmove : ((p.insert phase reviewer .requestChanges none none).rollbackTarget
          tools m).bind fun rb => (p.insert phase reviewer .requestChanges none none).rollBack
            tools m rb (requestChangesRationale reviewer) commits with
      | none => exact ⟨h.spent.insert phase reviewer .requestChanges none none, h.fresh⟩
      | some p' => exact h.insert_rollBack (by decide) (hexpires hreviewer hnotes) hmove

theorem Kept.step (h : p.Kept) {e : ProjectEvent} (hexpires : Expires tools m p e) :
    (p.step tools m e).Kept := by
  cases e with
  | tick seconds =>
    refine ⟨fun r hr houtlived hlive => h.spent r hr houtlived ?_, h.fresh⟩
    exact hlive.earlier (Nat.le_add_right _ _)
  | record phase approver decision token expiresAt => exact ⟨h.spent.insert _ _ _ _ _, h.fresh⟩
  | revoke row =>
    refine ⟨h.spent.revoke row, ?_⟩
    unfold GatedProject.step GatedProject.revoke
    dsimp only
    split <;> exact h.fresh
  | execute target commits => exact h.execute target commits
  | rollbackProject target rationale a => exact h.rollbackProject hexpires
  | gateReject rejector reason commits => exact h.gateReject hexpires
  | gateRequestChanges reviewer notes commits => exact h.gateRequestChanges hexpires

end GatedProject

/-- A project without a record of approvals yet. -/
def GatedProject.start (phase : Phase) (now : Nat) : GatedProject :=
  { now := now, currentPhase := some phase, entries := [(phase, now)] }

/-- The approval of a plan, without a token or an expiry. -/
def recordPlanApproval : ProjectEvent := .record .planApproved "khash".toList .approved none none

end SpineFormal.Orchestrator
