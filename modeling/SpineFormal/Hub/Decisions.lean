import SpineFormal.Base.Interleaving
import SpineFormal.Base.Run

/-!
# Acknowledging and rejecting a decision card

The store of decision cards is a cache over the table `decision_card`. One card is
looked at here: its row, its copies in the cache (one for each spelling of its id
that was used), and the requests on it, interleaved at the database calls of
`atransition`. The `UPDATE` asks only for the id, so a request decides a card
whatever its status is, and each request that gets a card back schedules its hook.
-/

namespace SpineFormal.Hub

set_option autoImplicit false

inductive DecisionStatus where
  | pending
  | acked
  | rejected
  | superseded
  | expired
  deriving DecidableEq

structure DecisionCard where
  decisionId : String
  projectId : Option String
  /-- `metadata.kind`, which the hooks dispatch on. -/
  kind : Option String
  status : DecisionStatus := .pending
  deriving DecidableEq

structure DecisionRow where
  card : DecisionCard
  decidedBy : Option String
  deriving DecidableEq

inductive Verb where
  | ack
  | reject
  deriving DecidableEq

def Verb.status : Verb → DecisionStatus
  | .ack => .acked
  | .reject => .rejected

/-- `on_decision_acked` or `on_decision_rejected`, with the card it is called with. -/
structure Hook where
  verb : Verb
  card : DecisionCard
  actor : String
  deriving DecidableEq

/-- Where a request stands in `atransition`. -/
inductive RequestStage where
  | persisting
  | hydrating
  /-- The cache is written, the database is tried again. -/
  | repersisting (card : DecisionCard)
  | returned
  deriving DecidableEq

structure DecisionRequest where
  verb : Verb
  decisionId : String
  actor : String
  stage : RequestStage
  deriving DecidableEq

structure DecisionStore where
  /-- A database handle is set and the id is a UUID. -/
  wired : Bool
  /-- The id as the database spells it. -/
  canonical : String
  row : Option DecisionRow
  cards : List (String × DecisionCard)
  /-- Every decision written to the row or to a copy, in order. -/
  written : List DecisionStatus := []
  hooks : List Hook := []

namespace DecisionStore
variable (st : DecisionStore)

def get (key : String) : Option DecisionCard := st.cards.lookup key

def cache (key : String) (card : DecisionCard) : DecisionStore :=
  { st with cards := (key, card) :: st.cards.filter fun p => decide (p.1 ≠ key) }

/-- `_persist_transition`; `ok` is whether the statement goes through. -/
def persistTransition (status : DecisionStatus) (actor : String) (ok : Bool) :
    Option (DecisionStore × DecisionCard) :=
  if st.wired && ok then
    st.row.map fun r =>
      ({ st with row := some ⟨{ r.card with status := status }, some actor⟩,
                 written := st.written ++ [status] }, { r.card with status := status })
  else none

/-- `_hydrate` puts the row under the database's spelling of the id. -/
def hydrate (ok : Bool) : DecisionStore :=
  match st.row with
  | some r => if st.wired && ok then st.cache st.canonical r.card else st
  | none => st

/-- `transition`, in the cache only. -/
def transition (key : String) (status : DecisionStatus) : Option (DecisionStore × DecisionCard) :=
  (st.get key).map fun card =>
    let decided := { card with status := status }
    ({ st.cache key decided with written := st.written ++ [status] }, decided)

def schedule (hook : Hook) : DecisionStore := { st with hooks := st.hooks ++ [hook] }

end DecisionStore

/-- The part of `atransition` after the row was not found, and the return of the route: without a
card in the cache the request is answered with 404. -/
def settle (st : DecisionStore) (r : DecisionRequest) : DecisionStore × DecisionRequest :=
  match st.transition r.decisionId r.verb.status with
  | none => (st, { r with stage := .returned })
  | some (st', card) =>
    if st'.wired then (st', { r with stage := .repersisting card })
    else (st'.schedule ⟨r.verb, card, r.actor⟩, { r with stage := .returned })

def runRequest (st : DecisionStore) (r : DecisionRequest) (ok : Bool) :
    DecisionStore × DecisionRequest :=
  match r.stage with
  | .persisting =>
    match st.persistTransition r.verb.status r.actor ok with
    | some (st', card) =>
      ((st'.cache r.decisionId card).schedule ⟨r.verb, card, r.actor⟩, { r with stage := .returned })
    | none =>
      if (st.get r.decisionId).isNone && st.wired then (st, { r with stage := .hydrating })
      else settle st r
  | .hydrating => settle (st.hydrate ok) r
  | .repersisting card =>
    match st.persistTransition r.verb.status r.actor ok with
    | some (st', persisted) =>
      (st'.schedule ⟨r.verb, persisted, r.actor⟩, { r with stage := .returned })
    | none => (st.schedule ⟨r.verb, card, r.actor⟩, { r with stage := .returned })
  | .returned => (st, r)

abbrev Desk := Pool DecisionStore DecisionRequest

inductive DeskEvent where
  /-- A click, an API call or the pipeline's own acknowledgement. -/
  | request (verb : Verb) (decisionId actor : String)
  | advance (request : Nat) (ok : Bool)

def Desk.step (p : Desk) : DeskEvent → Option Desk
  | .request verb decisionId actor => some (p.add ⟨verb, decisionId, actor, .persisting⟩)
  | .advance i ok => p.advance runRequest i ok

/-- A card nobody has decided, in the table or in the cache. -/
def Undecided (st : DecisionStore) : Prop :=
  (∀ r ∈ st.row, r.card.status = .pending) ∧ ∀ p ∈ st.cards, p.2.status = .pending

instance (st : DecisionStore) : Decidable (Undecided st) := by
  unfold Undecided
  infer_instance

/-- The first decision stands, and no second hook fires. -/
structure FirstStands (st : DecisionStore) : Prop where
  firm : ∀ s ∈ st.written, st.written.head? = some s
  once : st.hooks.length ≤ 1

def DecisionRequest.waiting (r : DecisionRequest) : Bool := decide (r.stage ≠ .returned)

/-- A request comes in only while the card is undecided and no other request is under way. -/
def AloneStep (p : Desk) : DeskEvent → Prop
  | .request _ _ _ => Undecided p.store ∧ ∀ r ∈ p.sessions, r.waiting = false
  | .advance _ _ => True

instance (p : Desk) (e : DeskEvent) : Decidable (AloneStep p e) := by
  unfold AloneStep
  split <;> infer_instance

/-! ## What a request can do -/

/-- The request has written nothing yet. -/
def RequestStage.early : RequestStage → Bool
  | .persisting => true
  | .hydrating => true
  | _ => false

inductive RequestStep (st : DecisionStore) (r : DecisionRequest) :
    DecisionStore → RequestStage → Prop where
  | idle : r.stage = .returned → RequestStep st r st .returned
  | wait : r.stage = .persisting → RequestStep st r st .hydrating
  /-- There is no such card. -/
  | missing {st' : DecisionStore} : r.stage.early = true → st'.written = st.written →
      st'.hooks = st.hooks → RequestStep st r st' .returned
  | cached {st' : DecisionStore} {card : DecisionCard} : r.stage.early = true →
      st'.written = st.written ++ [r.verb.status] → st'.hooks = st.hooks → ¬ Undecided st' →
      RequestStep st r st' (.repersisting card)
  | decided {st' : DecisionStore} {hook : Hook} : r.stage.early = true →
      st'.written = st.written ++ [r.verb.status] → st'.hooks = st.hooks ++ [hook] →
      ¬ Undecided st' → RequestStep st r st' .returned
  | repeated {st' : DecisionStore} {card : DecisionCard} {hook : Hook} :
      r.stage = .repersisting card →
      (∀ s ∈ st'.written, s ∈ st.written ∨ s = r.verb.status) → st'.hooks = st.hooks ++ [hook] →
      (¬ Undecided st → ¬ Undecided st') → RequestStep st r st' .returned

theorem Verb.status_ne_pending (v : Verb) : v.status ≠ .pending := by
  cases v <;> decide

theorem not_undecided_of_row {st : DecisionStore} {r : DecisionRow} (hr : st.row = some r)
    {v : Verb} (hs : r.card.status = v.status) : ¬ Undecided st := by
  intro h
  exact v.status_ne_pending (hs.symm.trans (h.1 r hr))

theorem not_undecided_of_copy {st : DecisionStore} {p : String × DecisionCard} (hp : p ∈ st.cards)
    {v : Verb} (hs : p.2.status = v.status) : ¬ Undecided st := by
  intro h
  exact v.status_ne_pending (hs.symm.trans (h.2 p hp))

theorem persistTransition_some {st st' : DecisionStore} {status : DecisionStatus} {actor : String}
    {ok : Bool} {card : DecisionCard} (h : st.persistTransition status actor ok = some (st', card)) :
    ∃ r, st'.row = some r ∧ r.card = card ∧ card.status = status ∧
      st'.written = st.written ++ [status] ∧ st'.hooks = st.hooks := by
  unfold DecisionStore.persistTransition at h
  split_ifs at h
  obtain ⟨r, -, heq⟩ := Option.map_eq_some_iff.mp h
  obtain ⟨rfl, rfl⟩ := Prod.mk.inj heq
  exact ⟨_, rfl, rfl, rfl, rfl, rfl⟩

theorem hydrate_log (st : DecisionStore) (ok : Bool) :
    (st.hydrate ok).written = st.written ∧ (st.hydrate ok).hooks = st.hooks := by
  unfold DecisionStore.hydrate
  split
  · split_ifs <;> exact ⟨rfl, rfl⟩
  · exact ⟨rfl, rfl⟩

/-- From a store with the same log, a request that comes to the cache finds no card, or decides the
one it finds. -/
theorem settle_requestStep {st st₁ : DecisionStore} {r : DecisionRequest}
    (hearly : r.stage.early = true) (hwritten : st₁.written = st.written)
    (hhooks : st₁.hooks = st.hooks) :
    ∃ st' stage, settle st₁ r = (st', { r with stage := stage }) ∧ RequestStep st r st' stage := by
  unfold settle
  cases hget : st₁.get r.decisionId with
  | none =>
    simp only [DecisionStore.transition, hget, Option.map_none]
    exact ⟨_, _, rfl, .missing hearly hwritten hhooks⟩
  | some card =>
    simp only [DecisionStore.transition, hget, Option.map_some]
    have hlog : st₁.written ++ [r.verb.status] = st.written ++ [r.verb.status] := by rw [hwritten]
    split_ifs
    · exact ⟨_, _, rfl, .cached hearly hlog hhooks
        (not_undecided_of_copy List.mem_cons_self rfl)⟩
    · exact ⟨_, _, rfl, .decided hearly hlog (congrArg (· ++ [_]) hhooks)
        (not_undecided_of_copy List.mem_cons_self rfl)⟩

theorem runRequest_requestStep (st : DecisionStore) (r : DecisionRequest) (ok : Bool) :
    ∃ st' stage, runRequest st r ok = (st', { r with stage := stage }) ∧
      RequestStep st r st' stage := by
  unfold runRequest
  cases hstage : r.stage with
  | persisting =>
    have hearly : r.stage.early = true := by rw [hstage]; rfl
    dsimp only
    cases hpersist : st.persistTransition r.verb.status r.actor ok with
    | none =>
      dsimp only
      split_ifs
      · exact ⟨_, _, rfl, .wait hstage⟩
      · exact settle_requestStep hearly rfl rfl
    | some p =>
      obtain ⟨st', card⟩ := p
      obtain ⟨row, hrow, rfl, hstatus, hwritten, hhooks⟩ := persistTransition_some hpersist
      refine ⟨_, _, rfl, .decided hearly hwritten (congrArg (· ++ [_]) hhooks) ?_⟩
      exact not_undecided_of_copy List.mem_cons_self hstatus
  | hydrating =>
    have hearly : r.stage.early = true := by rw [hstage]; rfl
    obtain ⟨hwritten, hhooks⟩ := hydrate_log st ok
    exact settle_requestStep hearly hwritten hhooks
  | repersisting card =>
    dsimp only
    cases hpersist : st.persistTransition r.verb.status r.actor ok with
    | none =>
      exact ⟨_, _, rfl, .repeated hstage (fun s hs => Or.inl hs) rfl id⟩
    | some p =>
      obtain ⟨st', persisted⟩ := p
      obtain ⟨row, hrow, rfl, hstatus, hwritten, hhooks⟩ := persistTransition_some hpersist
      refine ⟨_, _, rfl, .repeated hstage ?_ (congrArg (· ++ [_]) hhooks) ?_⟩
      · intro s hs
        rw [DecisionStore.schedule, hwritten] at hs
        simpa using hs
      · exact fun _ => not_undecided_of_row hrow hstatus
  | returned =>
    obtain ⟨verb, decisionId, actor, stage⟩ := r
    obtain rfl : stage = .returned := hstage
    exact ⟨_, _, rfl, .idle rfl⟩

/-! ## The invariant -/

/-- At most one request is under way; until its first write nothing is recorded, and until it is
done no hook has fired. -/
structure Lone (p : Desk) : Prop where
  sole : p.sessions.countP DecisionRequest.waiting ≤ 1
  firm : ∀ s ∈ p.store.written, ∀ t ∈ p.store.written, s = t
  once : p.store.hooks.length ≤ 1
  marked : p.store.written ≠ [] ∨ p.store.hooks ≠ [] → ¬ Undecided p.store
  quiet : ∀ r ∈ p.sessions, r.waiting = true → p.store.hooks = []
  clean : ∀ r ∈ p.sessions, r.stage.early = true → p.store.written = []
  own : ∀ r ∈ p.sessions, ∀ card, r.stage = .repersisting card →
    p.store.written ≠ [] ∧ ∀ s ∈ p.store.written, s = r.verb.status

theorem waiting_of_early {r : DecisionRequest} (h : r.stage.early = true) : r.waiting = true := by
  unfold DecisionRequest.waiting
  cases hs : r.stage with
  | returned =>
    rw [hs] at h
    cases h
  | _ => rfl

theorem Lone.others {st : DecisionStore} {pre post : List DecisionRequest} {r : DecisionRequest}
    (h : Lone ⟨st, pre ++ r :: post⟩) (hr : r.waiting = true) :
    ∀ x ∈ pre ++ post, x.waiting = false := by
  obtain ⟨hpre, hpost⟩ := sole_holder h.sole hr
  intro x hx
  rcases List.mem_append.mp hx with hx | hx
  · exact hpre x hx
  · exact hpost x hx

/-- The invariant from what holds of the one request that may be under way. -/
theorem Lone.of_others {st : DecisionStore} {pre post : List DecisionRequest} {r : DecisionRequest}
    (hothers : ∀ x ∈ pre ++ post, x.waiting = false)
    (hfirm : ∀ s ∈ st.written, ∀ t ∈ st.written, s = t) (honce : st.hooks.length ≤ 1)
    (hmarked : st.written ≠ [] ∨ st.hooks ≠ [] → ¬ Undecided st)
    (hquiet : r.waiting = true → st.hooks = []) (hclean : r.stage.early = true → st.written = [])
    (hown : ∀ card, r.stage = .repersisting card →
      st.written ≠ [] ∧ ∀ s ∈ st.written, s = r.verb.status) :
    Lone ⟨st, pre ++ r :: post⟩ := by
  have hmem : ∀ x ∈ pre ++ r :: post, x.waiting = true → x = r := by
    intro x hx hw
    rcases List.mem_append.mp hx with hx | hx
    · rw [hothers x (List.mem_append_left _ hx)] at hw
      cases hw
    · rcases List.mem_cons.mp hx with rfl | hx
      · rfl
      · rw [hothers x (List.mem_append_right _ hx)] at hw
        cases hw
  refine ⟨?_, hfirm, honce, hmarked, ?_, ?_, ?_⟩
  · have hzero : (pre ++ post).countP DecisionRequest.waiting = 0 := by
      rw [List.countP_eq_zero]
      exact fun x hx => by simp [hothers x hx]
    rw [List.countP_append] at hzero
    rw [List.countP_append, List.countP_cons]
    split_ifs <;> omega
  · intro x hx hw
    obtain rfl := hmem x hx hw
    exact hquiet hw
  · intro x hx he
    obtain rfl := hmem x hx (waiting_of_early he)
    exact hclean he
  · intro x hx card hs
    have hw : x.waiting = true := by
      unfold DecisionRequest.waiting
      rw [hs]
      rfl
    obtain rfl := hmem x hx hw
    exact hown card hs

theorem Lone.requestStep {st st' : DecisionStore} {pre post : List DecisionRequest}
    {r : DecisionRequest} {stage : RequestStage} (h : Lone ⟨st, pre ++ r :: post⟩)
    (hstep : RequestStep st r st' stage) : Lone ⟨st', pre ++ { r with stage := stage } :: post⟩ := by
  have hr : r ∈ pre ++ r :: post := by simp
  cases hstep with
  | idle hstage =>
    obtain ⟨verb, decisionId, actor, former⟩ := r
    obtain rfl : former = .returned := hstage
    exact h
  | wait hstage =>
    have hearly : r.stage.early = true := by rw [hstage]; rfl
    exact .of_others (h.others (waiting_of_early hearly)) h.firm h.once h.marked
      (fun _ => h.quiet r hr (waiting_of_early hearly)) (fun _ => h.clean r hr hearly)
      (fun _ hs => by cases hs)
  | missing hearly hwritten hhooks =>
    have hnone : st'.written = [] := hwritten.trans (h.clean r hr hearly)
    have hunfired : st'.hooks = [] := hhooks.trans (h.quiet r hr (waiting_of_early hearly))
    refine .of_others (h.others (waiting_of_early hearly)) ?_ ?_ ?_ (fun _ => hunfired)
      (fun _ => hnone) (fun _ hs => by cases hs)
    · simp [hnone]
    · simp [hunfired]
    · simp [hnone, hunfired]
  | cached hearly hwritten hhooks hmarked =>
    rw [show st.written = [] from h.clean r hr hearly, List.nil_append] at hwritten
    have hunfired : st'.hooks = [] := hhooks.trans (h.quiet r hr (waiting_of_early hearly))
    refine .of_others (h.others (waiting_of_early hearly)) ?_ ?_ (fun _ => hmarked)
      (fun _ => hunfired) (fun hs => by cases hs) (fun _ _ => ?_)
    · simp [hwritten]
    · simp [hunfired]
    · simp [hwritten]
  | decided hearly hwritten hhooks hmarked =>
    rw [show st.written = [] from h.clean r hr hearly, List.nil_append] at hwritten
    rw [show st.hooks = [] from h.quiet r hr (waiting_of_early hearly), List.nil_append] at hhooks
    refine .of_others (h.others (waiting_of_early hearly)) ?_ ?_ (fun _ => hmarked)
      (fun hw => by cases hw) (fun hs => by cases hs) (fun _ hs => by cases hs)
    · simp [hwritten]
    · simp [hhooks]
  | @repeated _ card hook hstage hwritten hhooks hmarked =>
    have hw : r.waiting = true := by
      unfold DecisionRequest.waiting
      rw [hstage]
      rfl
    obtain ⟨hne, hown⟩ := h.own r hr card hstage
    rw [show st.hooks = [] from h.quiet r hr hw, List.nil_append] at hhooks
    have hsame : ∀ s ∈ st'.written, s = r.verb.status := by
      intro s hs
      rcases hwritten s hs with hs | hs
      · exact hown s hs
      · exact hs
    refine .of_others (h.others hw) ?_ ?_ (fun _ => hmarked (h.marked (Or.inl hne)))
      (fun hw => by cases hw) (fun hs => by cases hs) (fun _ hs => by cases hs)
    · intro s hs t ht
      rw [hsame s hs, hsame t ht]
    · simp [hhooks]

theorem Lone.step {p q : Desk} {e : DeskEvent} (h : Lone p) (halone : AloneStep p e)
    (hstep : p.step e = some q) : Lone q := by
  cases e with
  | request verb decisionId actor =>
    obtain rfl := Option.some.inj hstep
    obtain ⟨hundecided, hreturned⟩ := halone
    have hempty : p.store.written = [] ∧ p.store.hooks = [] := by
      by_contra hne
      rw [not_and_or] at hne
      exact h.marked hne hundecided
    refine .of_others (by simpa using hreturned) h.firm h.once h.marked (fun _ => hempty.2)
      (fun _ => hempty.1) (fun _ hs => by cases hs)
  | advance i ok =>
    obtain ⟨pre, r, post, -, hsplit, rfl⟩ := Pool.advance_split hstep
    obtain ⟨st', stage, hrun, hmove⟩ := runRequest_requestStep p.store r ok
    obtain ⟨st, sessions⟩ := p
    obtain rfl : sessions = pre ++ r :: post := hsplit
    rw [hrun]
    exact h.requestStep hmove

/-- A card that was pushed and not decided, with no request on it. -/
def Desk.start (wired : Bool) (canonical : String) (row : Option DecisionRow)
    (cards : List (String × DecisionCard)) : Desk := ⟨⟨wired, canonical, row, cards, [], []⟩, []⟩

/-- When every request finds the card undecided and no other request under way, the first decision
stands and at most one hook fires, in every state of every run. -/
theorem first_decision_stands {wired : Bool} {canonical : String} {row : Option DecisionRow}
    {cards : List (String × DecisionCard)} {events : List DeskEvent} {p : Desk}
    (h : Run (fun p e q => AloneStep p e ∧ p.step e = some q)
      (Desk.start wired canonical row cards) events p) : FirstStands p.store := by
  have hlone : Lone p := by
    refine h.invariant (I := fun _ p => Lone p) ?_ ?_
    · refine ⟨Nat.zero_le _, ?_, Nat.zero_le _, ?_, ?_, ?_, ?_⟩
      · intro s hs
        cases hs
      · rintro (hne | hne)
        · exact absurd rfl hne
        · exact absurd rfl hne
      · intro r hr
        cases hr
      · intro r hr
        cases hr
      · intro r hr
        cases hr
    · intro _ p q e hp hstep
      exact hp.step hstep.1 hstep.2
  refine ⟨?_, hlone.once⟩
  intro s hs
  cases hwritten : p.store.written with
  | nil =>
    rw [hwritten] at hs
    cases hs
  | cons first rest =>
    have hfirst : first ∈ p.store.written := by
      rw [hwritten]
      exact List.mem_cons_self
    rw [hlone.firm s hs first hfirst]
    rfl

def planCard : DecisionCard := ⟨"7b1c", some "4", some "prd_approval", .pending⟩

/-- A pushed card, in the table and in the cache. -/
def pushedCard : Desk := Desk.start true "7b1c" (some ⟨planCard, none⟩) [("7b1c", planCard)]

theorem first_decision_stands_one_ack :
    ∃ p : Desk, p.store.written = [.acked] ∧ p.store.hooks.length = 1 ∧ FirstStands p.store := by
  have hex : (([DeskEvent.request .ack "7b1c" "ana", .advance 0 true].foldlM
      (fun p e => if AloneStep p e then p.step e else none) pushedCard).map fun p : Desk =>
        (p.store.written, p.store.hooks.length)) = some ([.acked], 1) := by
    decide
  obtain ⟨p, hp, heq⟩ := Option.map_eq_some_iff.mp hex
  obtain ⟨hwritten, hhooks⟩ := Prod.mk.inj heq
  exact ⟨p, hwritten, hhooks, first_decision_stands (Run.of_guarded_foldlM hp)⟩

/-- A rejection after an acknowledgement takes effect, and both hooks fire. -/
theorem second_request_decides_again :
    ¬ ∀ (wired : Bool) (canonical : String) (row : Option DecisionRow)
      (cards : List (String × DecisionCard)) (events : List DeskEvent) (p : Desk),
      Run (fun p e q => Desk.step p e = some q) (Desk.start wired canonical row cards) events p →
        FirstStands p.store := by
  intro h
  have hex : (([DeskEvent.request .ack "7b1c" "ana", .advance 0 true, .request .reject "7b1c" "bo",
      .advance 1 true].foldlM Desk.step pushedCard).map fun p : Desk =>
        (p.store.written, p.store.hooks.length)) = some ([.acked, .rejected], 2) := by
    decide
  obtain ⟨p, hp, heq⟩ := Option.map_eq_some_iff.mp hex
  obtain ⟨hwritten, hhooks⟩ := Prod.mk.inj heq
  have hstands := h _ _ _ _ _ p (Run.of_foldlM id hp)
  have honce := hstands.once
  rw [hhooks] at honce
  exact absurd honce (by decide)

end SpineFormal.Hub
