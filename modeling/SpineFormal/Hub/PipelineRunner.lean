import SpineFormal.Hub.GatePolicy

/-!
# The cards that the pipeline runner acks

The runner looks a card's kind up in the gate policy. The hook behind the ack takes the
card of a role's output for the gate that the role works towards, so that the kind that
was looked up and the handler that runs need not be the same.
-/

namespace SpineFormal.Hub.Recovery

set_option autoImplicit false

/-! ## Kinds and their texts -/

def namedKinds : List CardKind := .featureRequest :: (allAckKinds ++ neverAuto)

def CardKind.ofText (kind : String) : CardKind :=
  (namedKinds.find? fun k => k.text = kind).getD (.other kind)

@[simp] theorem CardKind.text_ofText (kind : String) : (CardKind.ofText kind).text = kind := by
  rw [CardKind.ofText]
  cases hfind : namedKinds.find? fun k => k.text = kind with
  | none => rfl
  | some k =>
    have htext := List.find?_some hfind
    exact of_decide_eq_true htext

/-- `_ROLE_OUTPUT_TO_DISPATCH_KIND`. -/
def roleOutputToDispatchKind : List (String × CardKind) := [
  ("planner_approval", .prdApproval), ("architect_approval", .roadmapApproval),
  ("conductor_approval", .trdApproval), ("engineer_approval", .sprintPlanApproval),
  ("verify_approval", .codeApproval), ("devops_release_approval", .localDeployPrompt),
  ("release_manager_approval", .qaApproval), ("auditor_approval", .qaApproval)]

/-- The kind under which an acked card is dispatched. -/
def CardKind.dispatched (kind : CardKind) : CardKind :=
  ((roleOutputToDispatchKind.find? fun e => e.1 = kind.text).map Prod.snd).getD kind

/-- The branches of `on_decision_acked`. -/
def handledKinds : List CardKind := [
  .intakeBriefing, .roleFailure, .orchestratorGap, .prdApproval, .roadmapApproval, .trdApproval,
  .sprintPlanApproval, .codeApproval, .codeReviewPass, .codeReviewBlocked,
  .securityReviewBlocked, .devopsApproval, .qaApproval, .localDeployPrompt, .hostDeployPrompt,
  .deployStatus, .hostDeployInstructions, .releaseGateApproval]

/-! ## The runner -/

/-- A pending card; `projectUuid` and `kind` are in its metadata, when they are texts there. -/
structure PendingCard where
  decisionId : Option String := none
  projectId : Option String := none
  projectUuid : Option String := none
  kind : Option String := none
  deriving DecidableEq

def PendingCard.cardKind (card : PendingCard) : CardKind := .ofText (card.kind.getD "")

/-- `_card_belongs`. -/
def PendingCard.Belongs (card : PendingCard) (projectUuid : String) : Prop :=
  card.projectUuid = some projectUuid ∨ card.projectId = some projectUuid

instance (card : PendingCard) (projectUuid : String) : Decidable (card.Belongs projectUuid) :=
  inferInstanceAs (Decidable (_ ∨ _))

def PendingCard.HasId (card : PendingCard) : Prop :=
  card.decisionId ≠ none ∧ card.decisionId ≠ some ""

instance (card : PendingCard) : Decidable card.HasId := inferInstanceAs (Decidable (_ ∧ _))

/-- The project that `on_decision_acked` finds. -/
def PendingCard.project (card : PendingCard) : Option String :=
  (card.projectId.filter fun id => id ≠ "") <|> card.projectUuid.filter fun id => id ≠ ""

/-- The handler that acking the card runs. -/
def PendingCard.handler (card : PendingCard) : Option CardKind :=
  if card.project = none ∨ card.kind = none then none
  else if card.cardKind.dispatched ∈ handledKinds then some card.cardKind.dispatched
  else none

/-- A project of a tick; `occupied` says that its intake, a recovery or a feature took
the tick. -/
structure RunnerProject where
  uuid : String
  settings : GateSettings
  operateStarted : Bool := false
  occupied : Bool := false

def stopKinds : List CardKind := [.orchestratorGap, .roleFailure]

inductive CardTurn where
  | skip
  | ack
  | pause
  deriving DecidableEq

/-- The body of the loop over the pending cards. -/
def RunnerProject.turn (p : RunnerProject) (card : PendingCard) : CardTurn :=
  if ¬ card.Belongs p.uuid then .skip
  else if card.cardKind ∈ stopKinds then
    if card.cardKind = .roleFailure ∧ p.operateStarted then
      if card.HasId then .ack else .skip
    else .pause
  else if canAutoAck card.cardKind p.settings then
    if card.HasId then .ack else .skip
  else .skip

/-- The cards that the loop acks and the kind that it pauses the project for. -/
def RunnerProject.ackCards (p : RunnerProject) :
    List PendingCard → List PendingCard × Option CardKind
  | [] => ([], none)
  | card :: cards =>
    match p.turn card with
    | .skip => p.ackCards cards
    | .ack => (card :: (p.ackCards cards).1, (p.ackCards cards).2)
    | .pause => ([], some card.cardKind)

/-- `_process_project`. -/
def RunnerProject.process (p : RunnerProject) (cards : List PendingCard) :
    List PendingCard × Option CardKind :=
  if p.occupied then ([], none) else p.ackCards cards

/-- `_dismiss_global_cards`, with the kinds of the environment. -/
def dismissGlobalCards (kinds : List String) (cards : List PendingCard) : List PendingCard :=
  cards.filter fun card => (∃ k ∈ card.kind, k ∈ kinds) ∧ card.project = none ∧ card.HasId

/-- What is dismissed for all projects runs no handler. -/
theorem handler_of_dismissed {kinds : List String} {cards : List PendingCard} {card : PendingCard}
    (h : card ∈ dismissGlobalCards kinds cards) : card.handler = none := by
  have hproject := (of_decide_eq_true (List.mem_filter.mp h).2).2.1
  rw [PendingCard.handler, if_pos (Or.inl hproject)]

/-! ## Which cards are acked -/

/-- A card of the project that no one but a founder may ack. -/
def RunnerProject.Pauses (p : RunnerProject) (card : PendingCard) : Prop :=
  card.Belongs p.uuid ∧ card.cardKind ∈ stopKinds ∧
    ¬ (card.cardKind = .roleFailure ∧ p.operateStarted = true)

instance (p : RunnerProject) (card : PendingCard) : Decidable (p.Pauses card) :=
  inferInstanceAs (Decidable (_ ∧ _ ∧ _))

/-- The cards that come before one that pauses the project. -/
def RunnerProject.reached (p : RunnerProject) (cards : List PendingCard) : List PendingCard :=
  cards.takeWhile fun card => ¬ p.Pauses card

theorem turn_pause_iff {p : RunnerProject} {card : PendingCard} :
    p.turn card = .pause ↔ p.Pauses card := by
  rw [RunnerProject.turn, RunnerProject.Pauses]
  by_cases hbelongs : card.Belongs p.uuid
  · rw [if_neg (not_not_intro hbelongs)]
    by_cases hstop : card.cardKind ∈ stopKinds
    · rw [if_pos hstop]
      by_cases hoperate : card.cardKind = .roleFailure ∧ p.operateStarted = true
      · rw [if_pos hoperate]
        by_cases hid : card.HasId <;> simp [hid, hoperate]
      · simp [hoperate, hbelongs, hstop]
    · rw [if_neg hstop]
      by_cases hauto : canAutoAck card.cardKind p.settings = true
      · by_cases hid : card.HasId <;> simp [hid, hauto, hstop]
      · simp [hauto, hstop]
  · simp [hbelongs]

theorem mem_ackCards {p : RunnerProject} {cards : List PendingCard} {card : PendingCard} :
    card ∈ (p.ackCards cards).1 ↔ card ∈ p.reached cards ∧ p.turn card = .ack := by
  induction cards with
  | nil => simp [RunnerProject.ackCards, RunnerProject.reached]
  | cons c cards ih =>
    rw [RunnerProject.ackCards, RunnerProject.reached, List.takeWhile_cons]
    rw [RunnerProject.reached] at ih
    cases hturn : p.turn c with
    | skip =>
      have hgo : ¬ p.Pauses c := fun h => by cases hturn.symm.trans (turn_pause_iff.mpr h)
      simp only [ih, hgo, not_false_eq_true, decide_true, if_true, List.mem_cons]
      constructor
      · rintro ⟨hmem, hack⟩
        exact ⟨.inr hmem, hack⟩
      · rintro ⟨rfl | hmem, hack⟩
        · rw [hturn] at hack
          cases hack
        · exact ⟨hmem, hack⟩
    | ack =>
      have hgo : ¬ p.Pauses c := fun h => by cases hturn.symm.trans (turn_pause_iff.mpr h)
      simp only [ih, hgo, not_false_eq_true, decide_true, if_true, List.mem_cons]
      constructor
      · rintro (rfl | ⟨hmem, hack⟩)
        · exact ⟨.inl rfl, hturn⟩
        · exact ⟨.inr hmem, hack⟩
      · rintro ⟨rfl | hmem, hack⟩
        · exact .inl rfl
        · exact .inr ⟨hmem, hack⟩
    | pause => simp [turn_pause_iff.mp hturn]

theorem turn_ack_iff {p : RunnerProject} {card : PendingCard} :
    p.turn card = .ack ↔ card.Belongs p.uuid ∧ card.HasId ∧
      (card.cardKind = .roleFailure ∧ p.operateStarted = true ∨
        canAutoAck card.cardKind p.settings = true) := by
  rw [RunnerProject.turn]
  by_cases hbelongs : card.Belongs p.uuid
  · rw [if_neg (not_not_intro hbelongs)]
    by_cases hstop : card.cardKind ∈ stopKinds
    · have hnever : canAutoAck card.cardKind p.settings = false := by
        refine canAutoAck_neverAuto ?_ p.settings
        simp only [stopKinds, List.mem_cons, List.not_mem_nil, or_false] at hstop
        rcases hstop with hkind | hkind <;> simp [neverAuto, hkind]
      rw [if_pos hstop]
      by_cases hoperate : card.cardKind = .roleFailure ∧ p.operateStarted = true
      · by_cases hid : card.HasId <;> simp [hbelongs, hid, hoperate]
      · rw [if_neg hoperate]
        simp [hoperate, hnever]
    · have hrole : card.cardKind ≠ .roleFailure := by
        intro hkind
        exact hstop (hkind ▸ by decide)
      rw [if_neg hstop]
      by_cases hauto : canAutoAck card.cardKind p.settings = true
      · by_cases hid : card.HasId <;> simp [hbelongs, hid, hauto]
      · simp [hrole, hauto]
  · simp [hbelongs]

/-! ## Holding a gate -/

theorem dispatched_eq_or (kind : CardKind) : kind.dispatched = kind ∨
    ∃ e ∈ roleOutputToDispatchKind, e.1 = kind.text ∧ kind.dispatched = e.2 := by
  rw [CardKind.dispatched]
  cases hfind : roleOutputToDispatchKind.find? fun e => e.1 = kind.text with
  | none => exact .inl rfl
  | some e =>
    have htext := List.find?_some hfind
    exact .inr ⟨e, List.mem_of_find?_eq_some hfind, of_decide_eq_true htext, rfl⟩

theorem roleOutput_approval : ∀ e ∈ roleOutputToDispatchKind,
    "_approval".toList <:+ e.1.toList ∧ ∀ k ∈ neverAuto, e.1 ≠ k.text := by
  decide

/-- With its gate held, a card is acked when it came in under the name of a role's output
that the policy does not hold. -/
theorem canAutoAck_iff_of_held {kind : CardKind} {md : GateSettings}
    (hheld : kind.dispatched ∈ (resolveGatePolicy md).hold) :
    canAutoAck kind md = true ↔ md.autonomous = true ∧ kind.dispatched ≠ kind ∧
      kind ∉ (resolveGatePolicy md).hold ∧
      (kind ∈ (resolveGatePolicy md).auto ∨ (resolveGatePolicy md).preset ≠ .gateChecked) := by
  rw [canAutoAck, Bool.and_eq_true]
  refine and_congr_right fun _ => ?_
  rw [GatePolicy.canAutoAck]
  rcases dispatched_eq_or kind with hsame | ⟨e, he, htext, -⟩
  · rw [hsame] at hheld ⊢
    simp [hheld]
  · obtain ⟨hsuffix, hnever⟩ := roleOutput_approval e he
    rw [htext] at hsuffix hnever
    have hkind : kind ∉ neverAuto := fun hmem => hnever kind hmem rfl
    rw [if_neg hkind]
    by_cases hhold : kind ∈ (resolveGatePolicy md).hold
    · simp [hhold]
    · have halias : kind.dispatched ≠ kind := fun heq => hhold (heq ▸ hheld)
      rw [if_neg hhold]
      by_cases hauto : kind ∈ (resolveGatePolicy md).auto
      · rw [if_pos hauto]
        exact ⟨fun _ => ⟨halias, hhold, .inl hauto⟩, fun _ => rfl⟩
      · rw [if_neg hauto, Bool.and_eq_true, decide_eq_true_eq]
        exact ⟨fun h => ⟨halias, hhold, .inr h.1⟩,
          fun h => ⟨h.2.2.resolve_left hauto, decide_eq_true hsuffix⟩⟩

/-- The card has a handler whose gate is held. -/
def RunnerProject.HoldsGate (p : RunnerProject) (card : PendingCard) : Prop :=
  ∃ gate ∈ card.handler, gate ∈ (resolveGatePolicy p.settings).hold

/-- The card gets past the policy: a failed role of a project in operation, or the output of
a role under its own name. -/
def RunnerProject.LetsThrough (p : RunnerProject) (card : PendingCard) : Prop :=
  card.Belongs p.uuid ∧ card.HasId ∧
    (card.cardKind = .roleFailure ∧ p.operateStarted = true ∨
      p.settings.autonomous = true ∧ card.cardKind.dispatched ≠ card.cardKind ∧
        card.cardKind ∉ (resolveGatePolicy p.settings).hold ∧
        (card.cardKind ∈ (resolveGatePolicy p.settings).auto ∨
          (resolveGatePolicy p.settings).preset ≠ .gateChecked))

theorem handler_eq_some {card : PendingCard} {gate : CardKind} (h : gate ∈ card.handler) :
    gate = card.cardKind.dispatched := by
  rw [PendingCard.handler] at h
  split at h
  · cases h
  · split at h
    · exact (Option.some.inj h).symm
    · cases h

theorem turn_ack_iff_of_held {p : RunnerProject} {card : PendingCard} (h : p.HoldsGate card) :
    p.turn card = .ack ↔ p.LetsThrough card := by
  obtain ⟨gate, hgate, hheld⟩ := h
  obtain rfl := handler_eq_some hgate
  rw [turn_ack_iff, canAutoAck_iff_of_held hheld, RunnerProject.LetsThrough]

/-- No card whose gate is held is acked, exactly when each of those that the loop gets to
fails to get past the policy. -/
theorem heldGates_notAcked_iff (p : RunnerProject) (cards : List PendingCard) :
    (∀ card ∈ (p.process cards).1, ¬ p.HoldsGate card) ↔
      p.occupied = true ∨ ∀ card ∈ p.reached cards, p.HoldsGate card → ¬ p.LetsThrough card := by
  rw [RunnerProject.process]
  by_cases hbusy : p.occupied = true
  · simp [hbusy]
  · rw [if_neg hbusy]
    constructor
    · intro h
      refine .inr fun card hcard hheld hthrough => h card ?_ hheld
      exact mem_ackCards.mpr ⟨hcard, (turn_ack_iff_of_held hheld).mpr hthrough⟩
    · intro h card hcard hheld
      obtain ⟨hreached, hack⟩ := mem_ackCards.mp hcard
      exact (h.resolve_left hbusy) card hreached hheld ((turn_ack_iff_of_held hheld).mp hack)

/-- An autonomous project that holds the plan's gate and nothing else. -/
def prdHeld : RunnerProject where
  uuid := "p-1"
  settings := { autonomous := true, hold := some [.prdApproval] }

def plannerCard : PendingCard :=
  ⟨some "card-1", some "p-1", some "p-1", some "planner_approval"⟩

/-- The planner's output goes through although the gate behind it is held. -/
theorem plannerOutput_passes_prdHold :
    ∃ card ∈ (prdHeld.process [plannerCard]).1, prdHeld.HoldsGate card := by
  refine ⟨plannerCard, by decide, .prdApproval, by decide, by decide⟩

end SpineFormal.Hub.Recovery
