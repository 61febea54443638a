import Mathlib.Data.List.Chain
import SpineFormal.Base.Interleaving
import SpineFormal.Base.Run
import SpineFormal.Federation.UpdateCascade

/-!
# Interleaved approvals and rejections

Any number of `approve_and_apply` and `reject` calls on one hub, interleaved at
their awaits. Each statement commits by itself, and the `UPDATE` of a status asks
for no former status.

Everything the calls do is recorded in order: rows created, statuses written,
rows inserted for children, signatures verified. One update is then looked at
through its `view`: its status, the statuses it went through, the children it was
offered to and where the calls on it stand. The invariant is on views.
-/

namespace SpineFormal.Federation

set_option autoImplicit false

inductive Effect where
  | created (id : Uuid)
  | statusWritten (id : Uuid) (status : RolloutStatus)
  | childInserted (id : Uuid) (child : Uuid)
  | signatureVerified (id : Uuid) (accepted : Bool)
  deriving DecidableEq

/-- Where a call stands between its awaits. -/
inductive Stage where
  | fetching
  | staging (rec : UpdateRecord)
  /-- `in_progress` is written, `sanity_smoke` is running. -/
  | smoking (rec : UpdateRecord)
  | marking (rec : UpdateRecord) (passed : Bool)
  | listing (rec : UpdateRecord)
  /-- In the loop, before the consent query of the first of these children. -/
  | offering (rec : UpdateRecord) (children : List HubRecord)
  | inserting (rec : UpdateRecord) (child : HubRecord) (rest : List HubRecord)
  | rejecting
  | finished

structure CascadeCall where
  updateId : Uuid
  actor : String
  stage : Stage

structure World where
  db : FederationDb
  effects : List Effect

/-- What an await gives back: a value, or an exception. -/
inductive Answer where
  | returned (value : Bool)
  | raised
  deriving DecidableEq

def World.writeStatus (w : World) (id : Uuid) (status : RolloutStatus) (approvedBy : Option String) :
    World where
  db := { w.db with updates := setStatus w.db.updates id status approvedBy }
  effects := w.effects ++
    if (statusOf w.db.updates id).isSome then [.statusWritten id status] else []

/-- A row with the default status `pending`; a second row with one id violates the primary key. -/
def World.insertUpdate (w : World) (rec : UpdateRecord) : Option World :=
  if (fetchUpdate w.db.updates rec.id).isSome then none
  else some ⟨{ w.db with updates :=
      w.db.updates ++ [{ rec with rolloutStatus := .pending, approvedBy := none }] },
    w.effects ++ [.created rec.id]⟩

/-- A call runs from one await to the next. `newId` is the `uuid4()` of a child's row. -/
def runCall (c : UpdateCascade) (w : World) (call : CascadeCall) (o : Answer × Uuid) :
    World × CascadeCall :=
  let goto (stage : Stage) : CascadeCall := { call with stage := stage }
  match call.stage, o.1 with
  | .fetching, .returned _ =>
    match fetchUpdate w.db.updates call.updateId with
    | some rec => if rec.rolloutStatus = .pending then (w, goto (.staging rec)) else (w, goto .finished)
    | none => (w, goto .finished)
  | .staging rec, .returned _ =>
    (w.writeStatus call.updateId .inProgress (some call.actor), goto (.smoking rec))
  -- a smoke that raises is caught, and the update fails
  | .smoking rec, .returned value => (w, goto (.marking rec value))
  | .smoking rec, .raised => (w, goto (.marking rec false))
  | .marking rec passed, .returned _ =>
    if passed then (w.writeStatus call.updateId .completed none, goto (.listing rec))
    else (w.writeStatus call.updateId .failed none, goto .finished)
  | .listing rec, .returned _ => (w, goto (.offering rec (w.db.hubs.listChildren c.localHubId)))
  | .offering _ [], _ => (w, goto .finished)
  | .offering rec (child :: rest), .returned _ =>
    if offered c w.db.consents child then (w, goto (.inserting rec child rest))
    else (w, goto (.offering rec rest))
  -- only an active child is asked about
  | .offering rec (child :: rest), .raised =>
    if child.consentStatus = .active then (w, goto .finished) else (w, goto (.offering rec rest))
  | .inserting rec child rest, .returned _ =>
    match w.insertUpdate (childUpdate c rec o.2 child) with
    | some w' => ({ w' with effects := w'.effects ++ [.childInserted call.updateId child.hubId] },
        goto (.offering rec rest))
    | none => (w, goto (.offering rec rest))
  -- an insert that raises is caught, and the loop goes on
  | .inserting rec _ rest, .raised => (w, goto (.offering rec rest))
  | .rejecting, .returned _ =>
    (w.writeStatus call.updateId .rolledBack (some call.actor), goto .finished)
  | _, _ => (w, goto .finished)

abbrev Hub := Pool World CascadeCall

inductive FederationEvent where
  | create (rec : UpdateRecord)
  | approveAndApply (updateId : Uuid) (approvedBy rationale : String)
  | reject (updateId : Uuid) (rejectedBy rationale : String)
  | advance (call : Nat) (answer : Answer) (newId : Uuid)
  /-- The registry and the consents change meanwhile. -/
  | register (hubs : HubTable) (consents : ConsentTable)

/-- A call without an actor or a rationale raises `ApprovalRequired` before it reads anything. -/
def Hub.step (c : UpdateCascade) (p : Hub) : FederationEvent → Option Hub
  | .create rec => (p.store.insertUpdate rec).map fun w => ⟨w, p.sessions⟩
  | .approveAndApply id approvedBy rationale =>
    if approvedBy = "" ∨ rationale = "" then some p else some (p.add ⟨id, approvedBy, .fetching⟩)
  | .reject id rejectedBy rationale =>
    if rejectedBy = "" ∨ rationale = "" then some p else some (p.add ⟨id, rejectedBy, .rejecting⟩)
  | .advance i answer newId => p.advance (runCall c) i (answer, newId)
  | .register hubs consents =>
    some ⟨⟨{ p.store.db with hubs := hubs, consents := consents }, p.store.effects⟩, p.sessions⟩

def Hub.start (hubs : HubTable) (consents : ConsentTable) : Hub := ⟨⟨⟨[], hubs, consents⟩, []⟩, []⟩

/-! ## One update -/

namespace Stage

/-- The call has written `in_progress` and not yet its end. -/
def applying : Stage → Bool
  | .smoking _ => true
  | .marking _ _ => true
  | _ => false

/-- The call has written `completed` and is at the fan-out. -/
def cascading : Stage → Bool
  | .listing _ => true
  | .offering _ _ => true
  | .inserting _ _ _ => true
  | _ => false

def holds (s : Stage) : Bool := s.applying || s.cascading

/-- The children the call has still to come to. -/
def queue : Stage → List Uuid
  | .offering _ children => children.map HubRecord.hubId
  | .inserting _ child rest => child.hubId :: rest.map HubRecord.hubId
  | _ => []

/-- The call is in the loop over the children. -/
def looping : Stage → Bool
  | .offering _ _ => true
  | .inserting _ _ _ => true
  | _ => false

end Stage

/-- What there is to see of one update. -/
structure UpdateView where
  status : Option RolloutStatus
  history : List RolloutStatus
  inserted : List Uuid
  stages : List Stage

/-- The statuses the row went through, from its creation on. -/
def statusHistory (effects : List Effect) (u : Uuid) : List RolloutStatus :=
  effects.filterMap fun
    | .created id => if id = u then some .pending else none
    | .statusWritten id status => if id = u then some status else none
    | _ => none

def insertedChildren (effects : List Effect) (u : Uuid) : List Uuid :=
  effects.filterMap fun
    | .childInserted id child => if id = u then some child else none
    | _ => none

def stagesOn (calls : List CascadeCall) (u : Uuid) : List Stage :=
  (calls.filter fun call => decide (call.updateId = u)).map CascadeCall.stage

def Hub.view (p : Hub) (u : Uuid) : UpdateView where
  status := statusOf p.store.db.updates u
  history := statusHistory p.store.effects u
  inserted := insertedChildren p.store.effects u
  stages := stagesOn p.sessions u

/-- The moves a status may make. -/
inductive Moves : RolloutStatus → RolloutStatus → Prop where
  | approve : Moves .pending .inProgress
  | complete : Moves .inProgress .completed
  | fail : Moves .inProgress .failed
  | reject : Moves .pending .rolledBack

def RolloutStatus.terminal : RolloutStatus → Bool
  | .completed => true
  | .failed => true
  | .rolledBack => true
  | _ => false

/-- The status moves as it should, an end is final, and no child is offered the update twice. -/
structure Orderly (v : UpdateView) : Prop where
  starts : ∀ s ∈ v.history.head?, s = .pending
  moves : v.history.IsChain fun s t => s = t ∨ Moves s t
  final : ∀ before after s, v.history = before ++ s :: after → s.terminal = true →
    ∀ t ∈ after, t = s
  once : v.inserted.Nodup

/-- The invariant: at most one call holds the update, its status says how far that call is, and the
children in its loop have no row yet. -/
structure Sound (v : UpdateView) : Prop where
  starts : ∀ s ∈ v.history.head?, s = .pending
  moves : v.history.IsChain fun s t => s = t ∨ Moves s t
  last : v.history.getLast? = v.status
  sole : v.stages.countP Stage.holds ≤ 1
  applying : ∀ s ∈ v.stages, s.applying = true → v.status = some .inProgress
  cascading : ∀ s ∈ v.stages, s.cascading = true → v.status = some .completed
  reached : v.inserted ≠ [] → v.status = some .completed ∧
    ∀ s ∈ v.stages, s.cascading = true → s.looping = true
  distinct : (v.inserted ++ v.stages.flatMap Stage.queue).Nodup

theorem chain_final {history before after : List RolloutStatus} {s : RolloutStatus}
    (hmoves : history.IsChain fun s t => s = t ∨ Moves s t)
    (hsplit : history = before ++ s :: after) (hs : s.terminal = true) : ∀ t ∈ after, t = s := by
  subst hsplit
  have hchain := (List.isChain_append.mp hmoves).2.1
  clear hmoves
  induction after with
  | nil =>
    intro t ht
    cases ht
  | cons x rest ih =>
    obtain ⟨hx, hrest⟩ := List.isChain_cons_cons.mp hchain
    have hsame : s = x := by
      rcases hx with h | h
      · exact h
      · cases h <;> cases hs
    subst hsame
    intro t ht
    rcases List.mem_cons.mp ht with rfl | ht
    · rfl
    · exact ih hrest t ht

theorem Sound.orderly {v : UpdateView} (h : Sound v) : Orderly v where
  starts := h.starts
  moves := h.moves
  final := fun _ _ _ hsplit hs => chain_final h.moves hsplit hs
  once := (List.nodup_append.mp h.distinct).1

theorem Stage.cascading_of_mem_queue {s : Stage} {x : Uuid} (hx : x ∈ s.queue) :
    s.cascading = true := by
  cases s with
  | offering _ _ => rfl
  | inserting _ _ _ => rfl
  | _ => cases hx

theorem Stage.queue_of_not_holds {s : Stage} (hs : s.holds = false) : s.queue = [] := by
  rw [Stage.holds, Bool.or_eq_false_iff] at hs
  apply List.eq_nil_iff_forall_not_mem.mpr
  intro x hx
  rw [Stage.cascading_of_mem_queue hx] at hs
  cases hs.2

section Views
variable {status : Option RolloutStatus} {history : List RolloutStatus} {inserted : List Uuid}
variable {pre post : List Stage} {s s' : Stage}

/-- A call that moves on without a write keeps the invariant when it holds no more than before. -/
theorem Sound.move (h : Sound ⟨status, history, inserted, pre ++ s :: post⟩)
    (happlying : s'.applying = true → s.applying = true)
    (hcascading : s'.cascading = true → s.cascading = true)
    (hlooping : s.looping = true → s'.cascading = true → s'.looping = true)
    (hqueue : s'.queue.Sublist s.queue) :
    Sound ⟨status, history, inserted, pre ++ s' :: post⟩ where
  starts := h.starts
  moves := h.moves
  last := h.last
  sole := by
    have hholds : s'.holds = true → s.holds = true := by
      simp only [Stage.holds, Bool.or_eq_true]
      exact Or.imp happlying hcascading
    have hsole := h.sole
    simp only [List.countP_append, List.countP_cons] at hsole ⊢
    by_cases hs' : s'.holds = true
    · rw [if_pos (hholds hs')] at hsole
      rw [if_pos hs']
      exact hsole
    · rw [if_neg hs']
      omega
  applying := by
    apply forall_mem_replace h.applying
    intro hax
    exact h.applying s (by simp) (happlying hax)
  cascading := by
    apply forall_mem_replace h.cascading
    intro hcx
    exact h.cascading s (by simp) (hcascading hcx)
  reached := by
    intro hne
    obtain ⟨hstatus, hloops⟩ := h.reached hne
    refine ⟨hstatus, ?_⟩
    apply forall_mem_replace hloops
    intro hcx
    exact hlooping (hloops s (by simp) (hcascading hcx)) hcx
  distinct := by
    refine h.distinct.sublist ((List.Sublist.refl inserted).append ?_)
    simp only [List.flatMap_append, List.flatMap_cons]
    exact (List.Sublist.refl _).append (hqueue.append (List.Sublist.refl _))

theorem Sound.release (h : Sound ⟨status, history, inserted, pre ++ s :: post⟩)
    (hs' : s'.holds = false) : Sound ⟨status, history, inserted, pre ++ s' :: post⟩ := by
  have hparts := hs'
  rw [Stage.holds, Bool.or_eq_false_iff] at hparts
  refine h.move ?_ ?_ ?_ ?_
  · simp [hparts.1]
  · simp [hparts.2]
  · simp [hparts.2]
  · rw [Stage.queue_of_not_holds hs']
    exact List.nil_sublist _

/-- The sole call on a completed update comes to the children. -/
theorem Sound.list {rec : UpdateRecord} {children : List HubRecord}
    (h : Sound ⟨status, history, inserted, pre ++ .listing rec :: post⟩)
    (hnodup : (children.map HubRecord.hubId).Nodup) :
    Sound ⟨status, history, inserted, pre ++ .offering rec children :: post⟩ := by
  obtain ⟨hpre, hpost⟩ := sole_holder h.sole rfl
  have hinserted : inserted = [] := by
    by_contra hne
    cases (h.reached hne).2 (.listing rec) (by simp) rfl
  have hqueue : ∀ l : List Stage, (∀ x ∈ l, x.holds = false) → l.flatMap Stage.queue = [] := by
    intro l hl
    rw [List.flatMap_eq_nil_iff]
    exact fun x hx => Stage.queue_of_not_holds (hl x hx)
  have hcompleted := h.cascading (.listing rec) (by simp) rfl
  refine ⟨h.starts, h.moves, h.last, ?_, ?_, ?_, ?_, ?_⟩
  · have hsole := h.sole
    rw [List.countP_append, List.countP_cons_of_pos rfl] at hsole ⊢
    exact hsole
  · apply forall_mem_replace h.applying
    intro hax
    cases hax
  · intro x hx hcx
    exact hcompleted
  · exact fun hne => absurd hinserted hne
  · rw [List.flatMap_append, List.flatMap_cons, hqueue pre hpre, hqueue post hpost, hinserted]
    simpa [Stage.queue] using hnodup

/-- A status is written along a move, by a call that no other call holds against. -/
theorem Sound.write {st st' : RolloutStatus}
    (h : Sound ⟨some st, history, inserted, pre ++ s :: post⟩) (hmove : Moves st st')
    (hpre : ∀ x ∈ pre, x.holds = false) (hpost : ∀ x ∈ post, x.holds = false)
    (happlying : s'.applying = true → st' = .inProgress)
    (hcascading : s'.cascading = true → st' = .completed) (hqueue : s'.queue = []) :
    Sound ⟨some st', history ++ [st'], inserted, pre ++ s' :: post⟩ := by
  have hinserted : inserted = [] := by
    by_contra hne
    obtain rfl := Option.some.inj (h.reached hne).1
    cases hmove
  have hother : ∀ x ∈ pre ++ s' :: post, x.holds = true → x = s' := by
    intro x hx hholds
    rcases List.mem_append.mp hx with hx | hx
    · rw [hpre x hx] at hholds
      cases hholds
    · rcases List.mem_cons.mp hx with rfl | hx
      · rfl
      · rw [hpost x hx] at hholds
        cases hholds
  refine ⟨?_, ?_, ?_, ?_, ?_, ?_, ?_, ?_⟩
  · intro x hx
    cases history with
    | nil => cases h.last
    | cons first rest => exact h.starts x (by simpa using hx)
  · apply List.isChain_append.mpr
    refine ⟨h.moves, List.isChain_singleton _, ?_⟩
    intro x hx y hy
    rw [h.last] at hx
    obtain rfl := Option.some.inj hx
    obtain rfl : st' = y := by simpa using hy
    exact Or.inr hmove
  · simp
  · have hpre0 : pre.countP Stage.holds = 0 := by
      rw [List.countP_eq_zero]
      exact fun x hx => by simp [hpre x hx]
    have hpost0 : post.countP Stage.holds = 0 := by
      rw [List.countP_eq_zero]
      exact fun x hx => by simp [hpost x hx]
    rw [List.countP_append, List.countP_cons, hpre0, hpost0]
    split_ifs <;> omega
  · intro x hx hax
    obtain rfl := hother x hx (by simp [Stage.holds, hax])
    rw [happlying hax]
  · intro x hx hcx
    obtain rfl := hother x hx (by simp [Stage.holds, hcx])
    rw [hcascading hcx]
  · exact fun hne => absurd hinserted hne
  · rw [hinserted, List.nil_append]
    have hnil : (pre ++ s' :: post).flatMap Stage.queue = [] := by
      rw [List.flatMap_eq_nil_iff]
      intro x hx
      by_cases hholds : x.holds = true
      · rw [hother x hx hholds, hqueue]
      · exact Stage.queue_of_not_holds (by simpa using hholds)
    rw [hnil]
    exact List.nodup_nil

theorem Sound.pending_free (h : Sound ⟨some .pending, history, inserted, pre ++ s :: post⟩) :
    (∀ x ∈ pre, x.holds = false) ∧ ∀ x ∈ post, x.holds = false := by
  have hfree : ∀ x ∈ pre ++ s :: post, x.holds = false := by
    intro x hx
    by_contra hholds
    rw [Bool.not_eq_false, Stage.holds, Bool.or_eq_true] at hholds
    rcases hholds with hax | hcx
    · cases h.applying x hx hax
    · cases h.cascading x hx hcx
  exact ⟨fun x hx => hfree x (List.mem_append_left _ hx),
    fun x hx => hfree x (List.mem_append_right _ (List.mem_cons_of_mem _ hx))⟩

theorem Sound.insert {rec : UpdateRecord} {child : HubRecord} {rest : List HubRecord}
    (h : Sound ⟨status, history, inserted, pre ++ .inserting rec child rest :: post⟩) :
    Sound ⟨status, history, inserted ++ [child.hubId], pre ++ .offering rec rest :: post⟩ := by
  obtain ⟨hpre, hpost⟩ := sole_holder h.sole rfl
  have hnext : Sound ⟨status, history, inserted, pre ++ .offering rec rest :: post⟩ :=
    h.move (fun hax => by cases hax) (fun _ => rfl) (fun _ _ => rfl)
      (List.sublist_cons_self child.hubId _)
  refine ⟨hnext.starts, hnext.moves, hnext.last, hnext.sole, hnext.applying, hnext.cascading,
    ?_, ?_⟩
  · intro _
    refine ⟨h.cascading (.inserting rec child rest) (by simp) rfl, ?_⟩
    intro x hx hcx
    have hholds : x.holds = true := by simp [Stage.holds, hcx]
    rcases List.mem_append.mp hx with hx | hx
    · rw [hpre x hx] at hholds
      cases hholds
    · rcases List.mem_cons.mp hx with rfl | hx
      · rfl
      · rw [hpost x hx] at hholds
        cases hholds
  · have hperm : (inserted ++ [child.hubId] ++
        (pre ++ .offering rec rest :: post).flatMap Stage.queue).Perm
        (inserted ++ (pre ++ .inserting rec child rest :: post).flatMap Stage.queue) := by
      simp only [List.flatMap_append, List.flatMap_cons, Stage.queue, List.append_assoc,
        List.cons_append, List.nil_append]
      exact (List.perm_middle.symm).append_left inserted
    exact hperm.nodup_iff.mpr h.distinct

end Views

theorem Sound.created {v : UpdateView} (h : Sound v) (hnone : v.status = none) :
    Sound { v with status := some .pending, history := v.history ++ [.pending] } := by
  have hempty : v.history = [] := by
    rw [← List.getLast?_eq_none_iff, h.last, hnone]
  refine ⟨?_, ?_, ?_, h.sole, ?_, ?_, ?_, h.distinct⟩
  · simp [hempty]
  · simp [hempty]
  · simp
  · intro s hs hax
    cases (h.applying s hs hax).symm.trans hnone
  · intro s hs hcx
    cases (h.cascading s hs hcx).symm.trans hnone
  · intro hne
    cases (h.reached hne).1.symm.trans hnone

theorem Sound.opened {v : UpdateView} (h : Sound v) {s : Stage} (hs : s.holds = false) :
    Sound { v with stages := v.stages ++ [s] } := by
  have hparts := hs
  rw [Stage.holds, Bool.or_eq_false_iff] at hparts
  refine ⟨h.starts, h.moves, h.last, ?_, ?_, ?_, ?_, ?_⟩
  · simpa [List.countP_append, List.countP_cons, hs] using h.sole
  · intro x hx hax
    rcases List.mem_append.mp hx with hx | hx
    · exact h.applying x hx hax
    · obtain rfl := List.mem_singleton.mp hx
      rw [hparts.1] at hax
      cases hax
  · intro x hx hcx
    rcases List.mem_append.mp hx with hx | hx
    · exact h.cascading x hx hcx
    · obtain rfl := List.mem_singleton.mp hx
      rw [hparts.2] at hcx
      cases hcx
  · intro hne
    refine ⟨(h.reached hne).1, ?_⟩
    intro x hx hcx
    rcases List.mem_append.mp hx with hx | hx
    · exact (h.reached hne).2 x hx hcx
    · obtain rfl := List.mem_singleton.mp hx
      rw [hparts.2] at hcx
      cases hcx
  · simpa [List.flatMap_append, Stage.queue_of_not_holds hs] using h.distinct

/-! ## Steps -/

/-- The moves of a call that write nothing. -/
inductive QuietMove (children : List HubRecord) (answer : Answer) : Stage → Stage → Prop where
  | release (s : Stage) {s' : Stage} : s'.holds = false → QuietMove children answer s s'
  | smoke (rec : UpdateRecord) {passed : Bool} : (passed = true → answer = .returned true) →
      QuietMove children answer (.smoking rec) (.marking rec passed)
  | list (rec : UpdateRecord) : QuietMove children answer (.listing rec) (.offering rec children)
  | skip (rec : UpdateRecord) (child : HubRecord) (rest : List HubRecord) :
      QuietMove children answer (.offering rec (child :: rest)) (.offering rec rest)
  | offer (rec : UpdateRecord) (child : HubRecord) (rest : List HubRecord) :
      QuietMove children answer (.offering rec (child :: rest)) (.inserting rec child rest)
  | refuse (rec : UpdateRecord) (child : HubRecord) (rest : List HubRecord) :
      QuietMove children answer (.inserting rec child rest) (.offering rec rest)

/-- The moves of a call that write a status. -/
inductive WriteMove : Stage → RolloutStatus → Stage → Prop where
  | stage (rec : UpdateRecord) : WriteMove (.staging rec) .inProgress (.smoking rec)
  | complete (rec : UpdateRecord) : WriteMove (.marking rec true) .completed (.listing rec)
  | fail (rec : UpdateRecord) : WriteMove (.marking rec false) .failed .finished
  | reject : WriteMove .rejecting .rolledBack .finished

/-- What a call can do between two awaits. -/
inductive CallStep (c : UpdateCascade) (w : World) (call : CascadeCall) (o : Answer × Uuid) :
    World → Stage → Prop where
  | quiet {stage : Stage} : QuietMove (w.db.hubs.listChildren c.localHubId) o.1 call.stage stage →
      CallStep c w call o w stage
  | write {status : RolloutStatus} {approvedBy : Option String} {stage : Stage} {value : Bool} :
      o.1 = .returned value → WriteMove call.stage status stage →
      CallStep c w call o (w.writeStatus call.updateId status approvedBy) stage
  | insert {rec : UpdateRecord} {child : HubRecord} {rest : List HubRecord} {w' : World} :
      call.stage = .inserting rec child rest →
      w.insertUpdate (childUpdate c rec o.2 child) = some w' →
      CallStep c w call o
        { w' with effects := w'.effects ++ [.childInserted call.updateId child.hubId] }
        (.offering rec rest)

theorem runCall_callStep (c : UpdateCascade) (w : World) (call : CascadeCall) (o : Answer × Uuid) :
    ∃ w' stage, runCall c w call o = (w', { call with stage := stage }) ∧
      CallStep c w call o w' stage := by
  obtain ⟨id, actor, stage⟩ := call
  obtain ⟨answer, newId⟩ := o
  cases stage with
  | fetching =>
    cases answer with
    | raised => exact ⟨_, _, rfl, .quiet (.release _ rfl)⟩
    | returned value =>
      simp only [runCall]
      split
      · split_ifs
        · exact ⟨_, _, rfl, .quiet (.release _ rfl)⟩
        · exact ⟨_, _, rfl, .quiet (.release _ rfl)⟩
      · exact ⟨_, _, rfl, .quiet (.release _ rfl)⟩
  | staging rec =>
    cases answer with
    | raised => exact ⟨_, _, rfl, .quiet (.release _ rfl)⟩
    | returned value => exact ⟨_, _, rfl, .write rfl (.stage rec)⟩
  | smoking rec =>
    cases answer with
    | raised => exact ⟨_, _, rfl, .quiet (.smoke rec fun h => by cases h)⟩
    | returned value => exact ⟨_, _, rfl, .quiet (.smoke rec fun h => by rw [h])⟩
  | marking rec passed =>
    cases answer with
    | raised => exact ⟨_, _, rfl, .quiet (.release _ rfl)⟩
    | returned value =>
      cases passed with
      | true => exact ⟨_, _, rfl, .write rfl (.complete rec)⟩
      | false => exact ⟨_, _, rfl, .write rfl (.fail rec)⟩
  | listing rec =>
    cases answer with
    | raised => exact ⟨_, _, rfl, .quiet (.release _ rfl)⟩
    | returned value => exact ⟨_, _, rfl, .quiet (.list rec)⟩
  | offering rec children =>
    cases children with
    | nil => cases answer <;> exact ⟨_, _, rfl, .quiet (.release _ rfl)⟩
    | cons child rest =>
      cases answer with
      | raised =>
        simp only [runCall]
        split_ifs
        · exact ⟨_, _, rfl, .quiet (.release _ rfl)⟩
        · exact ⟨_, _, rfl, .quiet (.skip rec child rest)⟩
      | returned value =>
        simp only [runCall]
        split_ifs
        · exact ⟨_, _, rfl, .quiet (.offer rec child rest)⟩
        · exact ⟨_, _, rfl, .quiet (.skip rec child rest)⟩
  | inserting rec child rest =>
    cases answer with
    | raised => exact ⟨_, _, rfl, .quiet (.refuse rec child rest)⟩
    | returned value =>
      simp only [runCall]
      split
      · exact ⟨_, _, rfl, .insert rfl ‹_›⟩
      · exact ⟨_, _, rfl, .quiet (.refuse rec child rest)⟩
  | rejecting =>
    cases answer with
    | raised => exact ⟨_, _, rfl, .quiet (.release _ rfl)⟩
    | returned value => exact ⟨_, _, rfl, .write rfl .reject⟩
  | finished => cases answer <;> exact ⟨_, _, rfl, .quiet (.release _ rfl)⟩

theorem fetchUpdate_append_ne {updates : List UpdateRecord} {r : UpdateRecord} {u : Uuid}
    (h : r.id ≠ u) : fetchUpdate (updates ++ [r]) u = fetchUpdate updates u := by
  simp [fetchUpdate, List.find?_append, h]

theorem statusOf_insertUpdate {w w' : World} {r : UpdateRecord} (h : w.insertUpdate r = some w') :
    statusOf w.db.updates r.id = none ∧ statusOf w'.db.updates r.id = some .pending ∧
      (∀ u, r.id ≠ u → statusOf w'.db.updates u = statusOf w.db.updates u) ∧
      w'.effects = w.effects ++ [.created r.id] := by
  unfold World.insertUpdate at h
  split_ifs at h with hnew
  obtain rfl := Option.some.inj h
  have hnone : fetchUpdate w.db.updates r.id = none := by simpa using hnew
  refine ⟨by simp [statusOf, hnone], ?_, ?_, rfl⟩
  · unfold fetchUpdate at hnone
    simp [statusOf, fetchUpdate, List.find?_append, hnone]
  · intro u hu
    exact congrArg (Option.map UpdateRecord.rolloutStatus) (fetchUpdate_append_ne hu)

section
variable {w w' : World} {calls : List CascadeCall} {u id : Uuid} {status : RolloutStatus}
variable {approvedBy : Option String} {r : UpdateRecord}

theorem view_writeStatus_ne (h : u ≠ id) :
    Hub.view ⟨w.writeStatus id status approvedBy, calls⟩ u = Hub.view ⟨w, calls⟩ u := by
  have hne : ¬ id = u := fun heq => h heq.symm
  simp only [Hub.view, World.writeStatus, statusOf_setStatus, if_neg h, UpdateView.mk.injEq, true_and,
    and_true, statusHistory, insertedChildren, List.filterMap_append]
  split <;> simp [hne]

theorem view_writeStatus_self {former : RolloutStatus}
    (h : statusOf w.db.updates u = some former) :
    Hub.view ⟨w.writeStatus u status approvedBy, calls⟩ u =
      ⟨some status, statusHistory w.effects u ++ [status], insertedChildren w.effects u,
        stagesOn calls u⟩ := by
  simp [Hub.view, World.writeStatus, statusOf_setStatus, h, statusHistory, insertedChildren]

/-- A row is inserted: for its own update a history begins, for the others nothing happens. -/
theorem Sound.insertUpdate (hinsert : w.insertUpdate r = some w')
    (h : Sound (Hub.view ⟨w, calls⟩ u)) : Sound (Hub.view ⟨w', calls⟩ u) := by
  obtain ⟨hnone, hpending, hother, heffects⟩ := statusOf_insertUpdate hinsert
  by_cases hu : r.id = u
  · subst hu
    have hcreated := h.created hnone
    simpa [Hub.view, hpending, heffects, statusHistory, insertedChildren] using hcreated
  · simpa [Hub.view, hother u hu, heffects, statusHistory, insertedChildren, hu] using h

end

/-- A write of `in_progress` and the write of a rejection find the row still pending. -/
def TimelyCall (w : World) (call : CascadeCall) (answer : Answer) : Prop :=
  match call.stage, answer with
  | .staging _, .returned _ => statusOf w.db.updates call.updateId = some .pending
  | .rejecting, .returned _ => ∀ s ∈ statusOf w.db.updates call.updateId, s = .pending
  | _, _ => True

instance (w : World) (call : CascadeCall) (answer : Answer) : Decidable (TimelyCall w call answer) := by
  unfold TimelyCall
  split <;> infer_instance

section
variable {c : UpdateCascade} {w w' : World} {pre post : List CascadeCall} {call : CascadeCall}
variable {o : Answer × Uuid} {u : Uuid} {stage : Stage}

/-- The calls around one that is on the update. -/
theorem view_split_self :
    Hub.view ⟨w, pre ++ { call with stage := stage } :: post⟩ call.updateId =
      ⟨statusOf w.db.updates call.updateId, statusHistory w.effects call.updateId,
        insertedChildren w.effects call.updateId,
        stagesOn pre call.updateId ++ stage :: stagesOn post call.updateId⟩ := by
  simp [Hub.view, stagesOn]

theorem view_split_ne (h : call.updateId ≠ u) :
    Hub.view ⟨w, pre ++ { call with stage := stage } :: post⟩ u = Hub.view ⟨w, pre ++ post⟩ u := by
  simp [Hub.view, stagesOn, h]

/-- A call does nothing to the other updates, except that a child's row may be a new update. -/
theorem Sound.callStep_ne (hu : call.updateId ≠ u) (hstep : CallStep c w call o w' stage)
    (h : Sound (Hub.view ⟨w, pre ++ post⟩ u)) :
    Sound (Hub.view ⟨w', pre ++ { call with stage := stage } :: post⟩ u) := by
  rw [view_split_ne hu]
  cases hstep with
  | quiet _ => exact h
  | write _ _ =>
    rw [view_writeStatus_ne fun heq => hu heq.symm]
    exact h
  | insert _ hinsert =>
    have hnew := h.insertUpdate hinsert
    simpa [Hub.view, statusHistory, insertedChildren, hu] using hnew

theorem Sound.quietMove {status : Option RolloutStatus} {history : List RolloutStatus}
    {inserted : List Uuid} {pre post : List Stage} {s s' : Stage} {children : List HubRecord}
    {answer : Answer} (h : Sound ⟨status, history, inserted, pre ++ s :: post⟩)
    (hmove : QuietMove children answer s s') (hchildren : (children.map HubRecord.hubId).Nodup) :
    Sound ⟨status, history, inserted, pre ++ s' :: post⟩ := by
  cases hmove with
  | release _ hs' => exact h.release hs'
  | smoke rec _ =>
    exact h.move (fun _ => rfl) (fun hcx => by cases hcx) (fun _ hcx => by cases hcx)
      (List.nil_sublist _)
  | list rec => exact h.list hchildren
  | skip rec child rest =>
    exact h.move (fun hax => by cases hax) (fun _ => rfl) (fun _ _ => rfl)
      (List.sublist_cons_self child.hubId _)
  | offer rec child rest =>
    exact h.move (fun hax => by cases hax) (fun _ => rfl) (fun _ _ => rfl) (List.Sublist.refl _)
  | refuse rec child rest =>
    exact h.move (fun hax => by cases hax) (fun _ => rfl) (fun _ _ => rfl)
      (List.sublist_cons_self child.hubId _)

theorem Sound.writeMove {history : List RolloutStatus} {inserted : List Uuid}
    {pre post : List Stage} {s s' : Stage} {former status : RolloutStatus}
    (h : Sound ⟨some former, history, inserted, pre ++ s :: post⟩) (hmove : WriteMove s status s')
    (htimely : s.holds = false → former = .pending) :
    Sound ⟨some status, history ++ [status], inserted, pre ++ s' :: post⟩ := by
  cases hmove with
  | stage rec =>
    obtain rfl := htimely rfl
    exact h.write .approve h.pending_free.1 h.pending_free.2 (fun _ => rfl)
      (fun hcx => by cases hcx) rfl
  | complete rec =>
    obtain rfl := Option.some.inj (h.applying (.marking rec true) (by simp) rfl)
    obtain ⟨hpre, hpost⟩ := sole_holder h.sole rfl
    exact h.write .complete hpre hpost (fun hax => by cases hax) (fun _ => rfl) rfl
  | fail rec =>
    obtain rfl := Option.some.inj (h.applying (.marking rec false) (by simp) rfl)
    obtain ⟨hpre, hpost⟩ := sole_holder h.sole rfl
    exact h.write .fail hpre hpost (fun hax => by cases hax) (fun hcx => by cases hcx) rfl
  | reject =>
    obtain rfl := htimely rfl
    exact h.write .reject h.pending_free.1 h.pending_free.2 (fun hax => by cases hax)
      (fun hcx => by cases hcx) rfl

/-- What a call does to its own update. -/
theorem Sound.callStep_self (htimely : TimelyCall w call o.1) (hstep : CallStep c w call o w' stage)
    (h : Sound (Hub.view ⟨w, pre ++ call :: post⟩ call.updateId)) :
    Sound (Hub.view ⟨w', pre ++ { call with stage := stage } :: post⟩ call.updateId) := by
  have hview : Sound ⟨statusOf w.db.updates call.updateId, statusHistory w.effects call.updateId,
      insertedChildren w.effects call.updateId,
      stagesOn pre call.updateId ++ call.stage :: stagesOn post call.updateId⟩ := by
    rw [← view_split_self]
    exact h
  cases hstep with
  | quiet hmove =>
    rw [view_split_self]
    exact hview.quietMove hmove (w.db.hubs.listChildren_nodup c.localHubId)
  | @write status approvedBy _ value hanswer hmove =>
    cases hformer : statusOf w.db.updates call.updateId with
    | none =>
      -- only a rejection can be of a row that is not there, and it writes nothing
      have hsame : (w.writeStatus call.updateId status approvedBy).effects = w.effects := by
        simp [World.writeStatus, hformer]
      have hstill : statusOf (w.writeStatus call.updateId status approvedBy).db.updates
          call.updateId = none := by
        simp [World.writeStatus, statusOf_setStatus, hformer]
      rw [view_split_self, hsame, hstill, ← hformer]
      unfold TimelyCall at htimely
      rw [hanswer] at htimely
      generalize hs : call.stage = s at *
      cases hmove with
      | stage rec => cases hformer.symm.trans htimely
      | complete rec => cases hformer.symm.trans (hview.applying (.marking rec true) (by simp) rfl)
      | fail rec => cases hformer.symm.trans (hview.applying (.marking rec false) (by simp) rfl)
      | reject => exact hview.release rfl
    | some former =>
      rw [view_writeStatus_self hformer]
      have hstages : stagesOn (pre ++ { call with stage := stage } :: post) call.updateId =
          stagesOn pre call.updateId ++ stage :: stagesOn post call.updateId := by
        simp [stagesOn]
      rw [hstages]
      rw [hformer] at hview
      refine hview.writeMove hmove ?_
      intro hholds
      unfold TimelyCall at htimely
      rw [hanswer] at htimely
      generalize call.stage = s at *
      cases hmove with
      | stage rec => exact Option.some.inj (hformer.symm.trans htimely)
      | complete rec => cases hholds
      | fail rec => cases hholds
      | reject => exact htimely former hformer
  | @insert rec child rest w' hstage hinsert =>
    rw [hstage] at hview
    obtain ⟨hnone, -, hother, heffects⟩ := statusOf_insertUpdate hinsert
    have hne : (childUpdate c rec o.2 child).id ≠ call.updateId := by
      intro heq
      have hcompleted := hview.cascading (.inserting rec child rest) (by simp) rfl
      rw [heq] at hnone
      cases hnone.symm.trans hcompleted
    have hdone := hview.insert
    rw [view_split_self]
    simpa [hother _ hne, heffects, statusHistory, insertedChildren, hne] using hdone

end

/-! ## Runs -/

/-- Every write of `in_progress` and of a rejection in this step finds the row still pending. -/
def TimelyStep (p : Hub) : FederationEvent → Prop
  | .advance i answer _ => ∀ call ∈ p.sessions[i]?, TimelyCall p.store call answer
  | _ => True

instance (p : Hub) (e : FederationEvent) : Decidable (TimelyStep p e) := by
  unfold TimelyStep
  split <;> infer_instance

theorem view_add {p : Hub} {call : CascadeCall} {u : Uuid} :
    Hub.view (p.add call) u =
      if call.updateId = u then { p.view u with stages := (p.view u).stages ++ [call.stage] }
      else p.view u := by
  split_ifs with h
  · simp [Pool.add, Hub.view, stagesOn, h]
  · simp [Pool.add, Hub.view, stagesOn, h]

theorem Sound.add {p : Hub} {call : CascadeCall} {u : Uuid} (h : Sound (p.view u))
    (hcall : call.stage.holds = false) : Sound (Hub.view (p.add call) u) := by
  rw [view_add]
  split_ifs
  · exact h.opened hcall
  · exact h

theorem Sound.step {c : UpdateCascade} {p q : Hub} {e : FederationEvent} {u : Uuid}
    (h : Sound (p.view u)) (htimely : TimelyStep p e) (hstep : p.step c e = some q) :
    Sound (q.view u) := by
  cases e with
  | create rec =>
    obtain ⟨w, hinsert, rfl⟩ := Option.map_eq_some_iff.mp hstep
    exact h.insertUpdate hinsert
  | approveAndApply id approvedBy rationale =>
    simp only [Hub.step] at hstep
    split_ifs at hstep
    · obtain rfl := Option.some.inj hstep
      exact h
    · obtain rfl := Option.some.inj hstep
      exact h.add rfl
  | reject id rejectedBy rationale =>
    simp only [Hub.step] at hstep
    split_ifs at hstep
    · obtain rfl := Option.some.inj hstep
      exact h
    · obtain rfl := Option.some.inj hstep
      exact h.add rfl
  | register hubs consents =>
    obtain rfl := Option.some.inj hstep
    exact h
  | advance i answer newId =>
    obtain ⟨pre, call, post, hcall, hsplit, rfl⟩ := Pool.advance_split hstep
    obtain ⟨w', stage, hrun, hmove⟩ := runCall_callStep c p.store call (answer, newId)
    obtain ⟨w, sessions⟩ := p
    obtain rfl : sessions = pre ++ call :: post := hsplit
    rw [hrun]
    by_cases hu : call.updateId = u
    · subst hu
      exact h.callStep_self (htimely call hcall) hmove
    · refine Sound.callStep_ne hu hmove ?_
      have hsame : Hub.view ⟨w, pre ++ call :: post⟩ u = Hub.view ⟨w, pre ++ post⟩ u :=
        view_split_ne hu
      rw [← hsame]
      exact h

theorem sound_start (hubs : HubTable) (consents : ConsentTable) (u : Uuid) :
    Sound ((Hub.start hubs consents).view u) where
  starts := fun _ hs => by cases hs
  moves := List.isChain_nil
  last := rfl
  sole := Nat.zero_le _
  applying := fun _ hs => by cases hs
  cascading := fun _ hs => by cases hs
  reached := fun hne => absurd rfl hne
  distinct := List.nodup_nil

/-- As long as no call writes over a status it did not read, every update's status moves as it
should and every child is offered it at most once, in every state of every run. -/
theorem update_status_orderly {c : UpdateCascade} {hubs : HubTable} {consents : ConsentTable}
    {events : List FederationEvent} {p : Hub}
    (h : Run (fun p e q => TimelyStep p e ∧ p.step c e = some q) (Hub.start hubs consents) events p)
    (u : Uuid) : Orderly (p.view u) := by
  have hsound : Sound (p.view u) := by
    refine h.invariant (I := fun _ p => Sound (p.view u)) (sound_start hubs consents u) ?_
    intro _ p q e hp hstep
    exact hp.step hstep.1 hstep.2
  exact hsound.orderly

def hubOne : UpdateCascade := ⟨hubUuid 1, {}, fun _ _ _ => false⟩

def hubOneStart : Hub := Hub.start threeHubs (consentTable [pushConsent (hubUuid 1)])

def awaited (i : Nat) : FederationEvent := .advance i (.returned true) (hubUuid 10)

/-- One approval from the request to the child's row. -/
def approval : List FederationEvent :=
  [.create sampleUpdate, .approveAndApply (hubUuid 9) "admin" "tested", awaited 0, awaited 0,
    awaited 0, awaited 0, awaited 0, awaited 0, awaited 0]

theorem update_status_orderly_one_approval :
    ∃ p : Hub, statusHistory p.store.effects (hubUuid 9) = [.pending, .inProgress, .completed] ∧
      insertedChildren p.store.effects (hubUuid 9) = [hubUuid 2] ∧ Orderly (p.view (hubUuid 9)) := by
  have hex : ((approval.foldlM (fun p e => if TimelyStep p e then p.step hubOne e else none)
      hubOneStart).map fun p => (statusHistory p.store.effects (hubUuid 9),
        insertedChildren p.store.effects (hubUuid 9))) =
      some ([.pending, .inProgress, .completed], [hubUuid 2]) := by
    decide +kernel
  obtain ⟨p, hp, heq⟩ := Option.map_eq_some_iff.mp hex
  obtain ⟨hhistory, hinserted⟩ := Prod.mk.inj heq
  exact ⟨p, hhistory, hinserted, update_status_orderly (c := hubOne)
    (Run.of_guarded_foldlM hp) (hubUuid 9)⟩

/-- A rejection arrives while the smoke of an approval runs. -/
def rejectionMidway : List FederationEvent :=
  [.create sampleUpdate, .approveAndApply (hubUuid 9) "admin" "tested", awaited 0, awaited 0,
    .reject (hubUuid 9) "owner" "too risky", awaited 1, awaited 0, awaited 0]

/-- The approval then undoes the rejection, and the update is completed. -/
theorem rejected_update_completes :
    ¬ ∀ (c : UpdateCascade) (hubs : HubTable) (consents : ConsentTable)
      (events : List FederationEvent) (p : Hub),
      Run (fun p e q => p.step c e = some q) (Hub.start hubs consents) events p →
        ∀ u, Orderly (p.view u) := by
  intro h
  have hex : ((rejectionMidway.foldlM (Hub.step hubOne) hubOneStart).map fun p =>
      statusHistory p.store.effects (hubUuid 9)) =
      some [.pending, .inProgress, .rolledBack, .completed] := by
    decide +kernel
  obtain ⟨p, hp, hhistory⟩ := Option.map_eq_some_iff.mp hex
  have horderly := h hubOne _ _ _ p (Run.of_foldlM id hp) (hubUuid 9)
  have hfinal := horderly.final [.pending, .inProgress] [.completed] .rolledBack hhistory rfl
    .completed (by simp)
  cases hfinal

/-! ## Signatures -/

/-- No update is completed or offered to a child unless the verifier accepted its signature. -/
def SignaturesChecked (effects : List Effect) : Prop :=
  ∀ u, (.statusWritten u .completed ∈ effects ∨ ∃ child, .childInserted u child ∈ effects) →
    .signatureVerified u true ∈ effects

def Stage.isSmoking : Stage → Bool
  | .smoking _ => true
  | _ => false

def Stage.passed : Stage → Bool
  | .marking _ passed => passed
  | s => s.cascading

/-- No smoke passes in this step. -/
def SmokeFails (p : Hub) : FederationEvent → Prop
  | .advance i answer _ => answer = .returned true → ∀ call ∈ p.sessions[i]?,
      call.stage.isSmoking = false
  | _ => True

instance (p : Hub) (e : FederationEvent) : Decidable (SmokeFails p e) := by
  unfold SmokeFails
  split <;> infer_instance

/-- No call is past its smoke, and nothing was completed or offered. -/
structure Unapplied (p : Hub) : Prop where
  calls : ∀ call ∈ p.sessions, call.stage.passed = false
  completed : ∀ u, .statusWritten u .completed ∉ p.store.effects
  offered : ∀ u child, .childInserted u child ∉ p.store.effects

theorem Stage.passed_of_not_holds {s : Stage} (hs : s.holds = false) : s.passed = false := by
  cases s with
  | marking _ _ => cases hs
  | listing _ => cases hs
  | offering _ _ => cases hs
  | inserting _ _ _ => cases hs
  | _ => rfl

/-- A call whose smoke has not passed and does not pass now writes no end but `failed`. -/
theorem CallStep.unapplied {c : UpdateCascade} {w w' : World} {call : CascadeCall}
    {o : Answer × Uuid} {stage : Stage} (h : CallStep c w call o w' stage)
    (hcall : call.stage.passed = false)
    (hsmoke : o.1 = .returned true → call.stage.isSmoking = false) :
    stage.passed = false ∧ ∀ e ∈ w'.effects, e ∈ w.effects ∨
      ∃ u status, e = .statusWritten u status ∧ status ≠ .completed := by
  cases h with
  | quiet hmove =>
    refine ⟨?_, fun e he => Or.inl he⟩
    generalize call.stage = s at *
    cases hmove with
    | release _ hs' => exact Stage.passed_of_not_holds hs'
    | smoke rec hpassed =>
      rename_i passed
      cases passed with
      | false => rfl
      | true => cases hsmoke (hpassed rfl)
    | list rec => cases hcall
    | skip rec child rest => cases hcall
    | offer rec child rest => cases hcall
    | refuse rec child rest => cases hcall
  | @write status approvedBy _ value hanswer hmove =>
    generalize call.stage = s at *
    have hend : stage.passed = false ∧ status ≠ .completed := by
      cases hmove with
      | stage rec => exact ⟨rfl, by decide⟩
      | complete rec => cases hcall
      | fail rec => exact ⟨rfl, by decide⟩
      | reject => exact ⟨rfl, by decide⟩
    refine ⟨hend.1, ?_⟩
    intro e he
    rcases List.mem_append.mp he with he | he
    · exact Or.inl he
    · split_ifs at he
      · exact Or.inr ⟨_, _, List.mem_singleton.mp he, hend.2⟩
      · cases he
  | @insert rec child rest w' hstage _ =>
    rw [hstage] at hcall
    cases hcall

theorem Unapplied.step {c : UpdateCascade} {p q : Hub} {e : FederationEvent} (h : Unapplied p)
    (hsmoke : SmokeFails p e) (hstep : p.step c e = some q) : Unapplied q := by
  have hadd : ∀ call : CascadeCall, call.stage.passed = false → Unapplied (p.add call) := by
    intro call hcall
    refine ⟨?_, h.completed, h.offered⟩
    intro x hx
    rcases List.mem_append.mp hx with hx | hx
    · exact h.calls x hx
    · obtain rfl := List.mem_singleton.mp hx
      exact hcall
  cases e with
  | create rec =>
    obtain ⟨w, hinsert, rfl⟩ := Option.map_eq_some_iff.mp hstep
    obtain ⟨-, -, -, heffects⟩ := statusOf_insertUpdate hinsert
    refine ⟨h.calls, ?_, ?_⟩
    · simpa [heffects] using h.completed
    · simpa [heffects] using h.offered
  | approveAndApply id approvedBy rationale =>
    simp only [Hub.step] at hstep
    split_ifs at hstep
    · obtain rfl := Option.some.inj hstep
      exact h
    · obtain rfl := Option.some.inj hstep
      exact hadd _ rfl
  | reject id rejectedBy rationale =>
    simp only [Hub.step] at hstep
    split_ifs at hstep
    · obtain rfl := Option.some.inj hstep
      exact h
    · obtain rfl := Option.some.inj hstep
      exact hadd _ rfl
  | register hubs consents =>
    obtain rfl := Option.some.inj hstep
    exact ⟨h.calls, h.completed, h.offered⟩
  | advance i answer newId =>
    obtain ⟨pre, call, post, hcall, hsplit, rfl⟩ := Pool.advance_split hstep
    obtain ⟨w', stage, hrun, hmove⟩ := runCall_callStep c p.store call (answer, newId)
    have hmem : call ∈ p.sessions := List.mem_of_getElem? hcall
    obtain ⟨hpassed, heffects⟩ := hmove.unapplied (h.calls call hmem)
      (fun hanswer => hsmoke hanswer call hcall)
    rw [hrun]
    have hcalls := h.calls
    rw [hsplit] at hcalls
    refine ⟨forall_mem_replace hcalls hpassed, ?_, ?_⟩
    · intro u hu
      rcases heffects _ hu with hu | ⟨v, status, heq, hne⟩
      · exact h.completed u hu
      · cases heq
        exact hne rfl
    · intro u child hu
      rcases heffects _ hu with hu | ⟨v, status, heq, -⟩
      · exact h.offered u child hu
      · cases heq

/-- No method calls the verifier, so it is only where no smoke passes that no unverified update is
completed or cascaded. -/
theorem signatures_checked {c : UpdateCascade} {hubs : HubTable} {consents : ConsentTable}
    {events : List FederationEvent} {p : Hub}
    (h : Run (fun p e q => SmokeFails p e ∧ p.step c e = some q) (Hub.start hubs consents) events p) :
    SignaturesChecked p.store.effects := by
  have hunapplied : Unapplied p := by
    refine h.invariant (I := fun _ p => Unapplied p) ?_ ?_
    · refine ⟨?_, ?_, ?_⟩
      · intro call hcall
        cases hcall
      · intro u hu
        cases hu
      · intro u child hu
        cases hu
    · intro _ p q e hp hstep
      exact hp.step hstep.1 hstep.2
  rintro u (hu | ⟨child, hu⟩)
  · exact absurd hu (hunapplied.completed u)
  · exact absurd hu (hunapplied.offered u child)

/-- An approval whose smoke returns false. -/
def failedApproval : List FederationEvent :=
  [.create sampleUpdate, .approveAndApply (hubUuid 9) "admin" "tested", awaited 0, awaited 0,
    .advance 0 (.returned false) (hubUuid 10), awaited 0]

theorem signatures_checked_failed_smoke :
    ∃ p : Hub, statusHistory p.store.effects (hubUuid 9) = [.pending, .inProgress, .failed] ∧
      SignaturesChecked p.store.effects := by
  have hex : ((failedApproval.foldlM (fun p e => if SmokeFails p e then p.step hubOne e else none)
      hubOneStart).map fun p => statusHistory p.store.effects (hubUuid 9)) =
      some [.pending, .inProgress, .failed] := by
    decide +kernel
  obtain ⟨p, hp, hhistory⟩ := Option.map_eq_some_iff.mp hex
  exact ⟨p, hhistory, signatures_checked (c := hubOne) (Run.of_guarded_foldlM hp)⟩

/-- The verifier of `hubOne` accepts nothing, and the approved update is completed. -/
theorem unverified_update_completes :
    ¬ ∀ (c : UpdateCascade) (hubs : HubTable) (consents : ConsentTable)
      (events : List FederationEvent) (p : Hub),
      Run (fun p e q => p.step c e = some q) (Hub.start hubs consents) events p →
        SignaturesChecked p.store.effects := by
  intro h
  have hex : ((approval.foldlM (Hub.step hubOne) hubOneStart).map fun p => p.store.effects) =
      some [.created (hubUuid 9), .statusWritten (hubUuid 9) .inProgress,
        .statusWritten (hubUuid 9) .completed, .created (hubUuid 10),
        .childInserted (hubUuid 9) (hubUuid 2)] := by
    decide +kernel
  obtain ⟨p, hp, heffects⟩ := Option.map_eq_some_iff.mp hex
  have hchecked := h hubOne _ _ _ p (Run.of_foldlM id hp)
  rw [heffects] at hchecked
  exact absurd (hchecked (hubUuid 9) (Or.inl (by decide))) (by decide)

end SpineFormal.Federation
