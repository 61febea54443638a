import SpineFormal.Hub.Decisions

/-!
# The late upsert of a decision card

`put` caches a card at once and schedules `_persist_put` with the card as it is
then. `atransition` writes the row first and the cache when the statement's answer
is back, or the other way round when it found no row. Statement and answer are
steps of their own here: between them other coroutines run.
-/

namespace SpineFormal.Hub

set_option autoImplicit false

inductive CallStage where
  | persisting
  /-- The `UPDATE` has taken effect, with the card that it returned. -/
  | persisted (card : Option DecisionCard)
  | hydrating
  | hydrated (card : Option DecisionCard)
  /-- The cache is written, the database is tried again. -/
  | repersisting
  | returned
  deriving DecidableEq

structure TransitionCall where
  decisionId : String
  newStatus : DecisionStatus
  actor : Option String
  stage : CallStage := .persisting
  deriving DecidableEq

/-- `actor or "system"`. -/
def TransitionCall.actorName (c : TransitionCall) : String :=
  match c.actor with
  | none => "system"
  | some actor => if actor = "" then "system" else actor

/-- `_persist_put` has captured its card. -/
structure PersistPut where
  card : DecisionCard
  /-- The project that a read of the row finds afterwards. -/
  project : Option String
  finished : Bool := false
  deriving DecidableEq

inductive Writer where
  | put (u : PersistPut)
  | call (c : TransitionCall)
  deriving DecidableEq

/-- `_INSERT_SQL`: who decided the card stays in a row that is there. -/
def DecisionStore.persistPut (st : DecisionStore) (u : PersistPut) (ok : Bool) : DecisionStore :=
  if st.wired && ok then
    { st with
      row := some ⟨⟨st.canonical, u.project, u.card.kind, u.card.status⟩,
        st.row.bind DecisionRow.decidedBy⟩
      written := st.written ++ [u.card.status] }
  else st

/-- `transition` in the cache, when the database had no row. -/
def TransitionCall.settle (st : DecisionStore) (c : TransitionCall) :
    DecisionStore × TransitionCall :=
  match st.transition c.decisionId c.newStatus with
  | none => (st, { c with stage := .returned })
  | some (st', _) => (st', { c with stage := .repersisting })

/-- A call's next statement, with `ok` whether it goes through, or what it does with the answer. -/
def TransitionCall.run (st : DecisionStore) (c : TransitionCall) (ok : Bool) :
    DecisionStore × TransitionCall :=
  match c.stage with
  | .persisting =>
    match st.persistTransition c.newStatus c.actorName ok with
    | none => (st, { c with stage := .persisted none })
    | some (st', card) => (st', { c with stage := .persisted (some card) })
  | .persisted (some card) => (st.cache c.decisionId card, { c with stage := .returned })
  | .persisted none =>
    match st.get c.decisionId with
    | none => (st, { c with stage := .hydrating })
    | some _ => c.settle st
  | .hydrating =>
    if st.wired && ok then (st, { c with stage := .hydrated (st.row.map DecisionRow.card) })
    else (st, { c with stage := .hydrated none })
  | .hydrated none => c.settle st
  | .hydrated (some card) => c.settle (st.cache st.canonical card)
  | .repersisting =>
    match st.persistTransition c.newStatus c.actorName ok with
    | none => (st, { c with stage := .returned })
    | some (st', _) => (st', { c with stage := .returned })
  | .returned => (st, c)

def Writer.run (st : DecisionStore) (w : Writer) (ok : Bool) : DecisionStore × Writer :=
  match w with
  | .put u =>
    if u.finished then (st, w) else (st.persistPut u ok, .put { u with finished := true })
  | .call c => ((c.run st ok).1, .call (c.run st ok).2)

def Writer.finished : Writer → Bool
  | .put u => u.finished
  | .call c => decide (c.stage = .returned)

abbrev Board := Pool DecisionStore Writer

/-- `put` on a store with a database. -/
def Board.put (st : DecisionStore) (card : DecisionCard) (project : Option String) : Board :=
  ⟨{ st with wired := true }.cache card.decisionId card, [.put ⟨card, project, false⟩]⟩

inductive BoardEvent where
  | transition (decisionId : String) (newStatus : DecisionStatus) (actor : Option String)
  | run (writer : Nat) (ok : Bool)

def Board.step (b : Board) : BoardEvent → Option Board
  | .transition decisionId newStatus actor =>
    some (b.add (.call ⟨decisionId, newStatus, actor, .persisting⟩))
  | .run i ok => b.advance Writer.run i ok

/-! ## Row and cache agree -/

def DecisionStore.rowStatus (st : DecisionStore) : Option DecisionStatus :=
  st.row.map fun r => r.card.status

def DecisionStore.cachedStatus (st : DecisionStore) (key : String) : Option DecisionStatus :=
  (st.get key).map DecisionCard.status

/-- Once nothing is under way, the card has the same status in the row and in the cache. -/
def Board.Agreed (b : Board) (key : String) : Prop :=
  (∀ w ∈ b.sessions, w.finished = true) →
    ∃ s, b.store.rowStatus = some s ∧ b.store.cachedStatus key = some s

/-- The call is going to write the status of one side to the other. -/
def Writer.repairs (row cached : Option DecisionStatus) : Writer → Bool
  | .put _ => false
  | .call c =>
    match c.stage with
    | .persisted (some card) => decide (row = some card.status)
    | .repersisting => decide (cached = some c.newStatus)
    | _ => false

/-- The statuses are equal, or a writer other than the `i`-th is going to make them so. -/
def Board.Reconciles (b : Board) (i : Nat) (row cached : Option DecisionStatus) : Prop :=
  row = cached ∨ ∃ w ∈ b.sessions.eraseIdx i, w.repairs row cached = true

def Writer.putPending : Writer → Bool
  | .put u => !u.finished
  | .call _ => false

def Board.putPending (b : Board) : Bool := b.sessions.any Writer.putPending

/-- What is written on one side is not behind the other: the status that the upsert captured and the
one that a second `UPDATE` sets are still the cached one, and a card that goes into the cache still
has the status of the row. Otherwise a writer yet to come carries the later status over. The calls
spell the id as `put` did. -/
def InOrder (key : String) (b : Board) : BoardEvent → Prop
  | .transition decisionId _ _ => decisionId = key
  | .run i ok =>
    match b.sessions[i]? with
    | some (.put u) => u.finished = false →
        b.Reconciles i (if ok then some u.card.status else b.store.rowStatus)
          (b.store.cachedStatus key)
    | some (.call c) => b.putPending = false →
      match c.stage with
      | .persisted (some card) => b.Reconciles i b.store.rowStatus (some card.status)
      | .repersisting =>
        b.Reconciles i (b.store.rowStatus.map fun s => if ok then c.newStatus else s)
          (b.store.cachedStatus key)
      | _ => True
    | none => True

instance (b : Board) (i : Nat) (row cached : Option DecisionStatus) :
    Decidable (b.Reconciles i row cached) := by
  unfold Board.Reconciles
  infer_instance

instance (key : String) (b : Board) (e : BoardEvent) : Decidable (InOrder key b e) := by
  cases e with
  | transition => unfold InOrder; infer_instance
  | run i ok =>
    unfold InOrder
    dsimp only
    split
    · infer_instance
    · split <;> infer_instance
    · infer_instance

/-! ## What each write leaves -/

theorem get_cache (st : DecisionStore) (key : String) (card : DecisionCard) :
    (st.cache key card).get key = some card := by
  simp [DecisionStore.get, DecisionStore.cache]

theorem lookup_filter_ne {α : Type} {key k : String} (hne : key ≠ k) (l : List (String × α)) :
    (l.filter fun p => decide (p.1 ≠ k)).lookup key = l.lookup key := by
  induction l with
  | nil => rfl
  | cons p l ih =>
    obtain ⟨k', v⟩ := p
    by_cases hk : k' = k
    · subst hk
      simpa [List.lookup_cons, beq_false_of_ne hne] using ih
    · simp only [ne_eq, decide_not] at ih
      simp [List.lookup_cons, hk, ih]

theorem get_cache_ne {st : DecisionStore} {key k : String} (hne : key ≠ k) (card : DecisionCard) :
    (st.cache k card).get key = st.get key := by
  simp only [DecisionStore.get, DecisionStore.cache, List.lookup_cons, beq_false_of_ne hne]
  exact lookup_filter_ne hne st.cards

theorem get_cache_isSome {st : DecisionStore} {key : String} (h : (st.get key).isSome) (k : String)
    (card : DecisionCard) : ((st.cache k card).get key).isSome := by
  by_cases hne : key = k
  · subst hne
    rw [get_cache]
    rfl
  · rwa [get_cache_ne hne]

theorem persistTransition_eq_some {st st' : DecisionStore} {status : DecisionStatus}
    {actor : String} {ok : Bool} {card : DecisionCard}
    (h : st.persistTransition status actor ok = some (st', card)) :
    st'.wired = st.wired ∧ st'.cards = st.cards ∧ card.status = status ∧ ok = true ∧
      st'.rowStatus = some status ∧ st.rowStatus ≠ none := by
  unfold DecisionStore.persistTransition at h
  split_ifs at h with hok
  obtain ⟨r, hr, heq⟩ := Option.map_eq_some_iff.mp h
  obtain ⟨rfl, rfl⟩ := Prod.mk.inj heq
  refine ⟨rfl, rfl, rfl, (Bool.and_eq_true_iff.mp hok).2, rfl, ?_⟩
  simp [DecisionStore.rowStatus, hr]

theorem persistTransition_eq_none {st : DecisionStore} (hwired : st.wired = true)
    {status : DecisionStatus} {actor : String} {ok : Bool}
    (h : st.persistTransition status actor ok = none) :
    (st.rowStatus.map fun s => if ok then status else s) = st.rowStatus := by
  unfold DecisionStore.persistTransition at h
  cases ok with
  | false => simp
  | true =>
    rw [hwired] at h
    have hrow : st.row = none := by simpa using h
    simp [DecisionStore.rowStatus, hrow]

theorem persistPut_rowStatus {st : DecisionStore} (hwired : st.wired = true) (u : PersistPut)
    (ok : Bool) : (st.persistPut u ok).rowStatus =
      if ok then some u.card.status else st.rowStatus := by
  unfold DecisionStore.persistPut
  cases ok with
  | false => simp
  | true => simp [hwired, DecisionStore.rowStatus]

theorem persistPut_cards (st : DecisionStore) (u : PersistPut) (ok : Bool) :
    (st.persistPut u ok).cards = st.cards ∧ (st.persistPut u ok).wired = st.wired := by
  unfold DecisionStore.persistPut
  split_ifs <;> exact ⟨rfl, rfl⟩

namespace TransitionCall
variable {st : DecisionStore} {key : String} {c : TransitionCall}

/-- What the next step of a call does to the two statuses. -/
inductive Effect (st : DecisionStore) (key : String) (c : TransitionCall) (ok : Bool)
    (st' : DecisionStore) (c' : TransitionCall) : Prop where
  | quiet : st'.rowStatus = st.rowStatus → st'.cachedStatus key = st.cachedStatus key →
      (∀ row cached, (Writer.call c).repairs row cached = false) → Effect st key c ok st' c'
  | starts : (Writer.call c').repairs st'.rowStatus (st'.cachedStatus key) = true →
      Effect st key c ok st' c'
  | copies {card : DecisionCard} : c.stage = .persisted (some card) →
      st'.rowStatus = st.rowStatus → st'.cachedStatus key = some card.status →
      Effect st key c ok st' c'
  | repeats : c.stage = .repersisting →
      st'.rowStatus = (st.rowStatus.map fun s => if ok then c.newStatus else s) →
      st'.cachedStatus key = st.cachedStatus key → Effect st key c ok st' c'

/-- What a call keeps. -/
structure Frame (key : String) (st' : DecisionStore) (c' : TransitionCall) : Prop where
  wired : st'.wired = true
  cached : (st'.get key).isSome
  keyed : c'.decisionId = key

theorem settle_spec (hwired : st.wired = true) (hcached : (st.get key).isSome)
    (hkey : c.decisionId = key) :
    Frame key (c.settle st).1 (c.settle st).2 ∧
      (Writer.call (c.settle st).2).repairs (c.settle st).1.rowStatus
        ((c.settle st).1.cachedStatus key) = true := by
  obtain ⟨card, hget⟩ := Option.isSome_iff_exists.mp hcached
  have hsettle : c.settle st =
      ({ st.cache key { card with status := c.newStatus } with
          written := st.written ++ [c.newStatus] }, { c with stage := .repersisting }) := by
    simp [settle, DecisionStore.transition, hkey, hget]
  rw [hsettle]
  have hnew := get_cache st key { card with status := c.newStatus }
  refine ⟨⟨hwired, Option.isSome_iff_exists.mpr ⟨_, hnew⟩, hkey⟩, ?_⟩
  refine decide_eq_true ?_
  exact congrArg (Option.map DecisionCard.status) hnew

theorem run_spec (hwired : st.wired = true) (hcached : (st.get key).isSome)
    (hkey : c.decisionId = key) (ok : Bool) :
    Frame key (c.run st ok).1 (c.run st ok).2 ∧
      Effect st key c ok (c.run st ok).1 (c.run st ok).2 := by
  have hget_eq : ∀ {st' : DecisionStore}, st'.cards = st.cards → st'.get key = st.get key :=
    fun h => congrArg (List.lookup key) h
  unfold run
  cases hstage : c.stage with
  | persisting =>
    have hquiet : ∀ row cached, (Writer.call c).repairs row cached = false := by
      simp [Writer.repairs, hstage]
    dsimp only
    cases hpersist : st.persistTransition c.newStatus c.actorName ok with
    | none => exact ⟨⟨hwired, hcached, hkey⟩, .quiet rfl rfl hquiet⟩
    | some p =>
      obtain ⟨st', card⟩ := p
      obtain ⟨hw, hcards, hstatus, -, hrow, -⟩ := persistTransition_eq_some hpersist
      refine ⟨⟨hw.trans hwired, (hget_eq hcards).symm ▸ hcached, hkey⟩, .starts ?_⟩
      exact decide_eq_true (hrow.trans (congrArg some hstatus.symm))
  | persisted found =>
    cases found with
    | some card =>
      have hnew := get_cache st key card
      rw [← hkey] at hnew ⊢
      exact ⟨⟨hwired, Option.isSome_iff_exists.mpr ⟨_, hnew⟩, rfl⟩,
        .copies hstage rfl (congrArg (Option.map DecisionCard.status) hnew)⟩
    | none =>
      obtain ⟨card, hget⟩ := Option.isSome_iff_exists.mp hcached
      obtain ⟨hframe, hrepairs⟩ := settle_spec hwired hcached hkey
      simp only [hkey, hget]
      exact ⟨hframe, .starts hrepairs⟩
  | hydrating =>
    have hquiet : ∀ row cached, (Writer.call c).repairs row cached = false := by
      simp [Writer.repairs, hstage]
    dsimp only
    split_ifs <;> exact ⟨⟨hwired, hcached, hkey⟩, .quiet rfl rfl hquiet⟩
  | hydrated found =>
    cases found with
    | none =>
      obtain ⟨hframe, hrepairs⟩ := settle_spec hwired hcached hkey
      exact ⟨hframe, .starts hrepairs⟩
    | some card =>
      have hwired' : (st.cache st.canonical card).wired = true := hwired
      obtain ⟨hframe, hrepairs⟩ := settle_spec hwired' (get_cache_isSome hcached _ _) hkey
      exact ⟨hframe, .starts hrepairs⟩
  | repersisting =>
    dsimp only
    cases hpersist : st.persistTransition c.newStatus c.actorName ok with
    | none =>
      exact ⟨⟨hwired, hcached, hkey⟩,
        .repeats hstage (persistTransition_eq_none hwired hpersist).symm rfl⟩
    | some p =>
      obtain ⟨st', card⟩ := p
      obtain ⟨hw, hcards, -, hok, hrow, hsome⟩ := persistTransition_eq_some hpersist
      refine ⟨⟨hw.trans hwired, (hget_eq hcards).symm ▸ hcached, hkey⟩, .repeats hstage ?_ ?_⟩
      · obtain ⟨s, hs⟩ := Option.ne_none_iff_exists'.mp hsome
        simp [hrow, hs, hok]
      · exact congrArg (Option.map DecisionCard.status) (hget_eq hcards)
  | returned =>
    have hquiet : ∀ row cached, (Writer.call c).repairs row cached = false := by
      simp [Writer.repairs, hstage]
    exact ⟨⟨hwired, hcached, hkey⟩, .quiet rfl rfl hquiet⟩

end TransitionCall

/-! ## The invariant -/

/-- Row and cache have the same status, or a call is going to make it so. -/
def Board.Reconciled (b : Board) (key : String) : Prop :=
  b.store.rowStatus = b.store.cachedStatus key ∨
    ∃ w ∈ b.sessions, w.repairs b.store.rowStatus (b.store.cachedStatus key) = true

structure Board.Kept (b : Board) (key : String) : Prop where
  wired : b.store.wired = true
  cached : (b.store.get key).isSome
  keyed : ∀ c, Writer.call c ∈ b.sessions → c.decisionId = key
  reconciled : b.putPending = false → b.Reconciled key

theorem Board.Reconciles.reconciled {b : Board} {key : String} {i : Nat} {w w' : Writer}
    {st' : DecisionStore} (hw : b.sessions[i]? = some w)
    (h : b.Reconciles i st'.rowStatus (st'.cachedStatus key)) :
    Board.Reconciled ⟨st', b.sessions.set i w'⟩ key := by
  rcases h with heq | ⟨v, hv, hrepairs⟩
  · exact .inl heq
  · exact .inr ⟨v, (mem_set_iff_eraseIdx hw).mpr (.inr hv), hrepairs⟩

theorem putPending_set_call {b : Board} {i : Nat} {c c' : TransitionCall} {st' : DecisionStore}
    (hc : b.sessions[i]? = some (.call c))
    (h : Board.putPending ⟨st', b.sessions.set i (.call c')⟩ = false) : b.putPending = false := by
  rw [Board.putPending, List.any_eq_false] at h ⊢
  intro w hw
  rcases (mem_iff_eraseIdx hc).mp hw with rfl | hw
  · simp [Writer.putPending]
  · exact h w ((mem_set_iff_eraseIdx hc).mpr (.inr hw))

theorem Board.Kept.call {b : Board} {key : String} {i : Nat} {c : TransitionCall} {ok : Bool}
    (hb : b.Kept key) (hc : b.sessions[i]? = some (.call c)) (horder : InOrder key b (.run i ok)) :
    Board.Kept ⟨(c.run b.store ok).1, b.sessions.set i (.call (c.run b.store ok).2)⟩ key := by
  have hkey : c.decisionId = key := hb.keyed c (List.mem_of_getElem? hc)
  obtain ⟨hframe, heffect⟩ := TransitionCall.run_spec hb.wired hb.cached hkey ok
  refine ⟨hframe.wired, hframe.cached, ?_, fun hpending => ?_⟩
  · intro d hd
    rcases (mem_set_iff_eraseIdx hc).mp hd with heq | hd
    · rw [Writer.call.inj heq]
      exact hframe.keyed
    · exact hb.keyed d ((mem_iff_eraseIdx hc).mpr (.inr hd))
  · have hbefore := putPending_set_call hc hpending
    simp only [InOrder, hc] at horder
    have horder := horder hbefore
    cases heffect with
    | quiet hrow hcached hquiet =>
      rw [Board.Reconciled, hrow, hcached]
      rcases hb.reconciled hbefore with heq | ⟨w, hw, hrepairs⟩
      · exact .inl heq
      · rcases (mem_iff_eraseIdx hc).mp hw with rfl | hw
        · -- The call that ran was not the one to repair.
          exact absurd hrepairs (by simp [hquiet])
        · exact .inr ⟨w, (mem_set_iff_eraseIdx hc).mpr (.inr hw), hrepairs⟩
    | starts hrepairs => exact .inr ⟨_, (mem_set_iff_eraseIdx hc).mpr (.inl rfl), hrepairs⟩
    | copies hstage hrow hcached =>
      simp only [hstage] at horder
      apply Board.Reconciles.reconciled hc
      rwa [hrow, hcached]
    | repeats hstage hrow hcached =>
      simp only [hstage] at horder
      apply Board.Reconciles.reconciled hc
      rwa [hrow, hcached]

theorem Board.Kept.put {b : Board} {key : String} {i : Nat} {u : PersistPut} {ok : Bool}
    (hb : b.Kept key) (hu : b.sessions[i]? = some (.put u)) (hfresh : u.finished = false)
    (horder : InOrder key b (.run i ok)) :
    Board.Kept ⟨b.store.persistPut u ok, b.sessions.set i (.put { u with finished := true })⟩
      key := by
  obtain ⟨hcards, hwired⟩ := persistPut_cards b.store u ok
  have hget : (b.store.persistPut u ok).get key = b.store.get key :=
    congrArg (List.lookup key) hcards
  refine ⟨hwired.trans hb.wired, hget.symm ▸ hb.cached, ?_, fun _ => ?_⟩
  · intro d hd
    rcases (mem_set_iff_eraseIdx hu).mp hd with heq | hd
    · cases heq
    · exact hb.keyed d ((mem_iff_eraseIdx hu).mpr (.inr hd))
  · simp only [InOrder, hu] at horder
    apply Board.Reconciles.reconciled hu
    rw [persistPut_rowStatus hb.wired, DecisionStore.cachedStatus, hget]
    exact horder hfresh

theorem Board.Kept.step {b b' : Board} {key : String} {e : BoardEvent} (hb : b.Kept key)
    (horder : InOrder key b e) (hstep : b.step e = some b') : b'.Kept key := by
  cases e with
  | transition decisionId newStatus actor =>
    obtain rfl := Option.some.inj hstep
    refine ⟨hb.wired, hb.cached, ?_, fun hpending => ?_⟩
    · intro c hc
      rcases List.mem_append.mp hc with hc | hc
      · exact hb.keyed c hc
      · rw [Writer.call.inj (List.mem_singleton.mp hc)]
        exact horder
    · have hbefore : b.putPending = false := by
        simpa [Board.putPending, Pool.add, Writer.putPending] using hpending
      rcases hb.reconciled hbefore with heq | ⟨w, hw, hrepairs⟩
      · exact .inl heq
      · exact .inr ⟨w, List.mem_append_left _ hw, hrepairs⟩
  | run i ok =>
    obtain ⟨w, hw, rfl⟩ := Pool.advance_eq_some hstep
    cases w with
    | call c => exact hb.call hw horder
    | put u =>
      cases hfinished : u.finished with
      | false =>
        simp only [Writer.run, hfinished]
        exact hb.put hw hfinished horder
      | true =>
        have hself : b.sessions.set i (.put u) = b.sessions := by
          obtain ⟨hi, hget⟩ := List.getElem?_eq_some_iff.mp hw
          rw [← hget, List.set_getElem_self]
        simp only [Writer.run, hfinished, if_true, hself]
        exact hb

theorem Board.put_kept (st : DecisionStore) (card : DecisionCard) (project : Option String) :
    (Board.put st card project).Kept card.decisionId := by
  have hget := get_cache { st with wired := true } card.decisionId card
  refine ⟨rfl, Option.isSome_iff_exists.mpr ⟨_, hget⟩, by simp [Board.put], fun hpending => ?_⟩
  simp [Board.put, Board.putPending, Writer.putPending] at hpending

theorem Board.Kept.agreed {b : Board} {key : String} (hb : b.Kept key) : b.Agreed key := by
  intro hfinished
  have hdone : b.putPending = false := by
    rw [Board.putPending, List.any_eq_false]
    intro w hw
    cases w with
    | put u => simpa [Writer.putPending, Writer.finished] using hfinished _ hw
    | call c => simp [Writer.putPending]
  obtain ⟨card, hget⟩ := Option.isSome_iff_exists.mp hb.cached
  have hcached : b.store.cachedStatus key = some card.status := by
    rw [DecisionStore.cachedStatus, hget]
    rfl
  rcases hb.reconciled hdone with heq | ⟨w, hw, hrepairs⟩
  · exact ⟨card.status, heq.trans hcached, hcached⟩
  · have hw := hfinished w hw
    cases w with
    | put u => cases hrepairs
    | call c =>
      have hstage : c.stage = .returned := of_decide_eq_true hw
      simp [Writer.repairs, hstage] at hrepairs

/-- A card as `enqueue_decision` puts it, under an id without dashes. -/
def queuedCard : DecisionCard := ⟨"c0ffee", some "7", some "plan_approval", .pending⟩

def emptyStore : DecisionStore := ⟨true, "c0-ffee", none, [], [], []⟩

end SpineFormal.Hub
