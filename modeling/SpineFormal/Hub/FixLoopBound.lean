import SpineFormal.Base.Interleaving
import SpineFormal.Base.Run
import SpineFormal.Hub.FixLoop

/-!
# How often the engineer remediates

The counter of the fix loop bounds the remediations as long as it accounts for
them: the request that sends the engineer has read what still stands, every
remediation before it was counted, and nothing sets the counter back.
-/

namespace SpineFormal.Hub.FixLoop

open Recovery

set_option autoImplicit false

/-- The engineer is at work on the findings, or its work is not counted yet. -/
def RoleStage.remediating : RoleStage → Bool
  | .dispatching kind _ => remediates kind
  | .counting => true
  | .incrementing _ => true
  | _ => false

def Task.roleStage : Task → Option RoleStage
  | .role stage => some stage
  | .worker _ _ _ (.scanning stage) => some stage
  | .worker _ _ _ (.working stage) => some stage
  | _ => none

def Task.remediating (t : Task) : Bool := t.roleStage.any RoleStage.remediating

def Loop.underWay (l : Loop) : Nat := l.tasks.countP Task.remediating

/-- The recovery request that a task is in. -/
def Task.requestStage : Task → Option DispatchStage
  | .request _ _ _ stage => some stage
  | .scheduler _ stage => some stage
  | .runner (.resetting _ _ stage) => some stage
  | .runner (.reviewing _ _ stage) => some stage
  | .runner (.featuring _ _ stage) => some stage
  | _ => none

/-- The task is about to set the counter back. -/
def Task.resets (t : Task) : Bool :=
  match t.requestStage with
  | some .resetting => true
  | _ => false

/-- The worker goes on to the role that it was made for. -/
def WorkerStage.launches (flag : InFlight) (md : Metadata) (st : LoopStore) (a : LoopAnswer) :
    WorkerStage → Bool
  | .starting => !(remediates flag.dispatchKind && !md.codeReviewMd)
  | .reloading => a.ok && (if a.found then st.row.metadata else md).codeReviewBlocked
  | _ => false

/-- The hook of a blocked review's card and the worker of a request send the engineer to remediate
when every remediation so far was counted, the hook while the counter is below its maximum, the
worker for a request of the auto loop, or one that has found the loop not exhausted, which has read
a blocked review and the counter as it still is; and no request sets the counter back once there was
a remediation. -/
def Task.Accounted (st : LoopStore) (a : LoopAnswer) : Task → Prop
  | .hook kind => a.ok = true → a.found = true → remediates kind = true →
      st.dispatched = st.counted ∧ st.row.metadata.codeFixIteration < maxCodeFixIterations
  | .worker flag autoLoop md stage =>
    remediates flag.dispatchKind = true → stage.launches flag md st a = true →
      (autoLoop = true ∨ md.fixLoopExhausted = false) ∧ md.codeReviewBlocked = true ∧
        md.codeFixIteration = st.row.metadata.codeFixIteration ∧ st.dispatched = st.counted
  | t => t.resets = true → a.ok = true → st.dispatched = 0

def Accounted (l : Loop) : LoopEvent → Prop
  | .advance i a => ∀ t ∈ l.tasks[i]?, t.Accounted l.store a
  | _ => True

instance (st : LoopStore) (a : LoopAnswer) (t : Task) : Decidable (t.Accounted st a) := by
  cases t <;> unfold Task.Accounted <;> infer_instance

instance (l : Loop) (e : LoopEvent) : Decidable (Accounted l e) := by
  cases e <;> unfold Accounted <;> infer_instance

/-! ## The guard of the auto loop -/

/-- A request of the auto loop that is going to remediate has found the loop not exhausted. -/
def Guard (flag : InFlight) (autoLoop : Bool) (md : Metadata) : Prop :=
  remediates flag.dispatchKind = true → autoLoop = true → md.fixLoopExhausted = false

def GuardedStage (autoLoop : Bool) : DispatchStage → Prop
  | .setting flag md => Guard flag autoLoop md
  | .spawning flag md => Guard flag autoLoop md
  | .counting _ _ => autoLoop = false
  | _ => True

def Task.Guarded : Task → Prop
  | .request _ _ autoLoop stage => GuardedStage autoLoop stage
  | .scheduler _ stage => GuardedStage true stage
  | .runner (.resetting _ _ stage) => GuardedStage true stage
  | .runner (.reviewing _ _ stage) => GuardedStage true stage
  | .runner (.featuring _ _ stage) => GuardedStage true stage
  | .worker flag autoLoop md _ => Guard flag autoLoop md
  | _ => True

/-- What a task is when it is created by another. -/
def Task.Fresh (t : Task) : Prop := t.Guarded ∧ t.roleStage = none

theorem action_of_remediates {action : RecoveryAction} {kind : CardKind}
    (h : dispatchKind action = some kind) (hkind : remediates kind = true) :
    action = .retryEngineerRemediate := by
  cases action <;> cases h <;> first | rfl | exact absurd hkind (by decide)

theorem startIfAllowed_guarded {actor : String} {now : Nat} {resolved : RecoveryAction}
    {md : Metadata} {a : Answer} {autoLoop : Bool}
    (h : resolved = .retryEngineerRemediate → autoLoop = true → md.fixLoopExhausted = false) :
    GuardedStage autoLoop (startIfAllowed actor now resolved md a) := by
  unfold startIfAllowed
  split
  · split
    · rename_i kind hkind
      exact fun hremediates => h (action_of_remediates hkind hremediates)
    · trivial
  · trivial

theorem decideDispatch_guarded (actor : String) (autoLoop : Bool) (now : Nat)
    (resolved : RecoveryAction) (md : Metadata) (a : Answer) :
    GuardedStage autoLoop (decideDispatch actor autoLoop now resolved md a) := by
  unfold decideDispatch
  split
  · split <;> trivial
  · split
    · split <;> trivial
    · split_ifs with hauto hexhausted hexhausted
      · trivial
      · exact startIfAllowed_guarded fun _ _ => by simpa using hexhausted
      · exact startIfAllowed_guarded fun _ h => absurd h hauto
      · exact Bool.eq_false_iff.mpr hauto
    · rename_i hresolved
      exact startIfAllowed_guarded fun h => absurd h hresolved

theorem runDispatch_guarded {action : RecoveryAction} {actor : String} {autoLoop : Bool}
    {st : Store} {stage : DispatchStage} {a : Answer} (h : GuardedStage autoLoop stage) :
    GuardedStage autoLoop (runDispatch action actor autoLoop st stage a).2 := by
  unfold runDispatch
  cases stage with
  | loading => dsimp only; split_ifs <;> trivial
  | loaded md =>
    dsimp only
    split
    · trivial
    · split_ifs
      · trivial
      · exact decideDispatch_guarded ..
  | reaping resolved md => dsimp only; split_ifs <;> trivial
  | deciding resolved md => exact decideDispatch_guarded ..
  | counting resolved md =>
    dsimp only
    split_ifs
    · trivial
    · exact startIfAllowed_guarded fun _ hauto => absurd (h.symm.trans hauto) (by decide)
    · trivial
  | setting flag md =>
    dsimp only
    split_ifs
    · exact h
    · trivial
  | resetting => dsimp only; split_ifs <;> trivial
  | spawning flag md => dsimp only; split_ifs <;> trivial
  | running => dsimp only; split_ifs <;> trivial
  | finished reply => trivial

/-! ## What a step does to the three numbers -/

structure Tally where
  dispatched : Nat
  counted : Nat
  iteration : Nat

def LoopStore.tally (st : LoopStore) : Tally :=
  ⟨st.dispatched, st.counted, st.row.metadata.codeFixIteration⟩

theorem tally_enqueueAll (st : LoopStore) (kinds : List CardKind) :
    (st.enqueueAll kinds).tally = st.tally := by
  unfold LoopStore.enqueueAll
  induction kinds generalizing st with
  | nil => rfl
  | cons kind kinds ih => exact ih (st.enqueue kind none)

theorem tally_gap (st : LoopStore) (handled : Bool) : (st.gap handled).tally = st.tally := by
  cases handled <;> rfl

theorem tally_roleTask (st : LoopStore) (stage : RoleStage) :
    (roleTask st stage).1.tally = st.tally := by
  unfold roleTask
  split
  · exact tally_gap _ _
  · rfl
  · rfl

theorem roleStage_roleTask {st : LoopStore} {stage s : RoleStage}
    (h : (roleTask st stage).2.roleStage = some s) : s = stage := by
  unfold roleTask at h
  split at h
  · cases h
  · cases h
  · exact (Option.some.inj h).symm

theorem roleTask_idle {st : LoopStore} {stage : RoleStage} (h : stage.remediating = false) :
    (roleTask st stage).2.remediating = false := by
  cases hstage : (roleTask st stage).2.roleStage with
  | none => rw [Task.remediating, hstage, Option.any_none]
  | some s => rw [Task.remediating, hstage, Option.any_some, roleStage_roleTask hstage, h]

theorem startRole_remediates {st : LoopStore} {kind : CardKind} (card : Option CardKind)
    (h : remediates kind = true) :
    startRole st kind card =
      ({ st with dispatched := st.dispatched + 1 }, .dispatching kind card) := by
  have hspec : kindRoleDispatch kind = some (.engineer, .remediateFromReview) := of_decide_eq_true h
  rw [startRole, hspec]
  simp [h]

theorem startRole_other (st : LoopStore) {kind : CardKind} (card : Option CardKind)
    (h : remediates kind = false) :
    (startRole st kind card).1 = st ∧ (startRole st kind card).2.remediating = false := by
  unfold startRole
  split
  · exact ⟨rfl, rfl⟩
  · simp [h, RoleStage.remediating]

theorem startRole_not_incrementing {st : LoopStore} {kind : CardKind} {card : Option CardKind}
    {n : Nat} : (startRole st kind card).2 ≠ .incrementing n := by
  unfold startRole
  split <;> simp

/-- A piece of a role counts a remediation, or leaves the numbers as they are. -/
inductive RoleEffect (st st' : LoopStore) (stage stage' : RoleStage) : Prop where
  | quiet (tally : st'.tally = st.tally)
      (remediating : stage'.remediating = true → stage.remediating = true)
      (fresh : ∀ n, stage' = .incrementing n → n = st.row.metadata.codeFixIteration + 1)
  | count (n : Nat) (counts : stage = .incrementing n)
      (tally : st'.tally = ⟨st.dispatched, st.counted + 1, n⟩)
      (remediating : stage'.remediating = false)

theorem RoleEffect.of_finished {st st' : LoopStore} {stage : RoleStage} {handled : Bool}
    (h : st'.tally = st.tally) : RoleEffect st st' stage (.finished handled) :=
  .quiet h (by simp [RoleStage.remediating]) (by simp)

theorem roleResult_effect (st : LoopStore) (kind : CardKind) (card result card' : Option CardKind)
    (text : Bool) :
    RoleEffect st (roleResult st kind card result text).1 (.dispatching kind card')
      (roleResult st kind card result text).2 := by
  unfold roleResult
  by_cases hdeploy : result.or card = some (.other "deploy") ∨ kind = .localDeployPrompt
  · rw [if_pos hdeploy]
    exact .of_finished rfl
  · rw [if_neg hdeploy]
    split
    · split_ifs with hkind
      · refine .quiet rfl (fun _ => ?_) (by simp)
        rw [hkind]
        rfl
      · exact .of_finished rfl
    · exact .quiet rfl (by simp [RoleStage.remediating]) (by simp)
    · exact .quiet rfl (by simp [RoleStage.remediating]) (by simp)
    · exact .of_finished rfl
    · exact .of_finished rfl

theorem runRole_effect (st : LoopStore) (stage : RoleStage) (a : LoopAnswer) :
    RoleEffect st (runRole st stage a).1 stage (runRole st stage a).2.1 := by
  unfold runRole
  by_cases hok : a.ok = true
  · rw [if_pos hok]
    cases stage with
    | dispatching kind card =>
      cases a.role with
      | failed => exact .quiet rfl (by simp [RoleStage.remediating]) (by simp)
      | ok result text => exact roleResult_effect st kind card result card text
    | failing kind => exact .of_finished rfl
    | counting =>
      refine .quiet rfl (fun _ => rfl) ?_
      dsimp only
      split_ifs <;> simp +contextual
    | incrementing n => exact .count n rfl rfl rfl
    | reloading =>
      dsimp only
      split_ifs
      · obtain ⟨hst, hstage⟩ :=
          startRole_other st none (show remediates .codeApproval = false from rfl)
        refine .quiet (by rw [hst]) (by simp [hstage]) fun n h => ?_
        exact absurd h startRole_not_incrementing
      · exact .of_finished rfl
    | recording blocked text =>
      dsimp only
      split_ifs
      · exact .quiet rfl (by simp [RoleStage.remediating]) (by simp)
      · exact .of_finished rfl
    | judging =>
      dsimp only
      split_ifs
      · refine .of_finished ?_
        unfold schedule
        split_ifs <;> rfl
      · exact .of_finished rfl
    | finished handled => exact .of_finished rfl
    | raised => exact .quiet rfl (by simp [RoleStage.remediating]) (by simp)
  · rw [if_neg hok]
    cases stage with
    | finished handled => exact .of_finished rfl
    | _ => exact .quiet rfl (by simp [RoleStage.remediating]) (by simp)

theorem runRole_created {st : LoopStore} {stage : RoleStage} {a : LoopAnswer} {t : Task}
    (h : t ∈ (runRole st stage a).2.2) : t = .scheduler 1 .loading := by
  unfold runRole at h
  by_cases hok : a.ok = true
  · rw [if_pos hok] at h
    cases stage with
    | judging =>
      dsimp only at h
      split_ifs at h
      · unfold schedule at h
        split_ifs at h
        · cases h
        · exact List.mem_singleton.mp h
      · cases h
    | dispatching kind card =>
      cases hrole : a.role <;> simp [hrole] at h
    | reloading =>
      dsimp only at h
      split_ifs at h <;> cases h
    | recording blocked text =>
      dsimp only at h
      split_ifs at h <;> cases h
    | _ => cases h
  · rw [if_neg hok] at h
    cases h

theorem runDispatch_iteration (action : RecoveryAction) (actor : String) (autoLoop : Bool)
    (st : Store) (stage : DispatchStage) (a : Answer) :
    (runDispatch action actor autoLoop st stage a).1.metadata.codeFixIteration =
        st.metadata.codeFixIteration ∨
      stage = .resetting ∧ a.ok = true ∧
        (runDispatch action actor autoLoop st stage a).1.metadata.codeFixIteration = 0 := by
  unfold runDispatch
  cases stage with
  | loaded md =>
    left
    dsimp only
    split
    · rfl
    · split_ifs <;> rfl
  | resetting =>
    cases hok : a.ok with
    | true => exact .inr ⟨rfl, rfl, by simp [Store.resetFixLoop]⟩
    | false => exact .inl (by simp)
  | reaping resolved md => left; dsimp only; split_ifs <;> rfl
  | counting resolved md => left; dsimp only; split_ifs <;> rfl
  | setting flag md => left; dsimp only; split_ifs <;> rfl
  | running => left; dsimp only; split_ifs <;> rfl
  | _ => exact .inl rfl

/-- A piece of a recovery request sets the counter back, or leaves the numbers as they are. -/
theorem runRequest_tally (action : RecoveryAction) (actor : String) (autoLoop : Bool)
    (st : LoopStore) (stage : DispatchStage) (a : LoopAnswer) :
    (runRequest action actor autoLoop st stage a).1.tally = st.tally ∨
      stage = .resetting ∧ a.ok = true ∧
        (runRequest action actor autoLoop st stage a).1.tally =
          ⟨st.dispatched, st.counted, 0⟩ := by
  unfold runRequest
  split
  · split_ifs <;> exact .inl rfl
  · rcases runDispatch_iteration action actor autoLoop ⟨st.row.metadata, st.now⟩ stage
      { a.toAnswer with pending := st.cards.length } with hsame | ⟨hstage, hok, hzero⟩
    · exact .inl (congrArg (Tally.mk st.dispatched st.counted) hsame)
    · exact .inr ⟨hstage, hok, congrArg (Tally.mk st.dispatched st.counted) hzero⟩

theorem runRequest_guarded (action : RecoveryAction) (actor : String) {autoLoop : Bool}
    (st : LoopStore) {stage : DispatchStage} (a : LoopAnswer) (h : GuardedStage autoLoop stage) :
    GuardedStage autoLoop (runRequest action actor autoLoop st stage a).2.1 ∧
      ∀ t ∈ (runRequest action actor autoLoop st stage a).2.2, t.Fresh := by
  unfold runRequest
  split
  · split_ifs
    · refine ⟨trivial, fun t ht => ?_⟩
      rw [List.mem_singleton.mp ht]
      exact ⟨h, rfl⟩
    · exact ⟨trivial, by simp⟩
  · exact ⟨runDispatch_guarded h, by simp⟩

/-- A worker that starts its role dispatches a remediation, or leaves the numbers as they are. -/
theorem launch_effect (st : LoopStore) (flag : InFlight) (autoLoop : Bool) (md : Metadata) :
    (remediates flag.dispatchKind = true ∧
      (launch st flag).1.tally = ⟨st.dispatched + 1, st.counted, st.row.metadata.codeFixIteration⟩ ∧
      ∀ n, (Task.worker flag autoLoop md (launch st flag).2).roleStage ≠ some (.incrementing n)) ∨
    (launch st flag).1.tally = st.tally ∧
      (Task.worker flag autoLoop md (launch st flag).2).remediating = false := by
  unfold launch
  cases hkind : remediates flag.dispatchKind with
  | true =>
    rw [startRole_remediates _ hkind]
    exact .inl ⟨rfl, rfl, by simp [Task.roleStage]⟩
  | false =>
    obtain ⟨hst, hstage⟩ :=
      startRole_other st (approvalCardKind flag.action) hkind
    right
    dsimp only
    split
    · exact ⟨by rw [tally_gap, hst], rfl⟩
    · rw [hst]
      exact ⟨rfl, by simpa [Task.remediating, Task.roleStage] using hstage⟩

/-! ## What a step of a task does -/

/-- The four things that a step of a task can do to the numbers, with what accounts for them. -/
inductive Task.Effect (st : LoopStore) (a : LoopAnswer) (t : Task) (st' : LoopStore) (t' : Task) :
    Prop where
  | quiet (tally : st'.tally = st.tally)
      (remediating : t'.remediating = true → t.remediating = true)
      (fresh : ∀ n, t'.roleStage = some (.incrementing n) →
        n = st.row.metadata.codeFixIteration + 1)
  | dispatch
      (tally : st'.tally = ⟨st.dispatched + 1, st.counted, st.row.metadata.codeFixIteration⟩)
      (idle : t.remediating = false) (fresh : ∀ n, t'.roleStage ≠ some (.incrementing n))
      (accounted : t.Accounted st a → t.Guarded → st.dispatched = st.counted ∧
        st.row.metadata.codeFixIteration < maxCodeFixIterations)
  | count (n : Nat) (counts : t.roleStage = some (.incrementing n))
      (tally : st'.tally = ⟨st.dispatched, st.counted + 1, n⟩) (idle : t'.remediating = false)
  | reset (tally : st'.tally = ⟨st.dispatched, st.counted, 0⟩) (idle : t'.remediating = false)
      (accounted : t.Accounted st a → st.dispatched = 0)

section Effects
variable {st st' : LoopStore} {a : LoopAnswer} {t t' : Task}

theorem Task.not_incrementing_of_idle (h : t.remediating = false) (n : Nat) :
    t.roleStage ≠ some (.incrementing n) := by
  intro hstage
  rw [Task.remediating, hstage] at h
  cases h

theorem Task.Effect.of_idle (htally : st'.tally = st.tally) (hidle : t'.remediating = false) :
    t.Effect st a st' t' :=
  .quiet htally (fun h => absurd (hidle.symm.trans h) (by decide))
    fun n h => absurd h (Task.not_incrementing_of_idle hidle n)

/-- A piece of a role is a step of the task that runs it; `t'` is that task afterwards. -/
theorem Task.Effect.of_role {stage stage' : RoleStage} {st'' : LoopStore}
    (h : RoleEffect st st' stage stage') (ht : t.roleStage = some stage)
    (htally : st''.tally = st'.tally) (ht' : ∀ s, t'.roleStage = some s → s = stage') :
    t.Effect st a st'' t' := by
  have hstage : t'.remediating = true → stage'.remediating = true := by
    intro hremediating
    cases hs : t'.roleStage with
    | none =>
      rw [Task.remediating, hs] at hremediating
      cases hremediating
    | some s =>
      rw [Task.remediating, hs] at hremediating
      exact ht' s hs ▸ hremediating
  cases h with
  | quiet tally remediating fresh =>
    refine .quiet (htally.trans tally) (fun h => ?_) fun n hn => fresh n (ht' _ hn).symm
    rw [Task.remediating, ht]
    exact remediating (hstage h)
  | count n counts tally remediating =>
    refine .count n (ht.trans (congrArg some counts)) (htally.trans tally) ?_
    by_contra hnot
    have hremediating := hstage (by simpa using hnot)
    rw [remediating] at hremediating
    cases hremediating

theorem Task.Effect.of_request (action : RecoveryAction) (actor : String) (autoLoop : Bool)
    {stage : DispatchStage} (ht : t.requestStage = some stage) (hidle : t'.remediating = false)
    (hrequest : t.Accounted st a → t.resets = true → a.ok = true → st.dispatched = 0)
    (htally : st'.tally = (runRequest action actor autoLoop st stage a).1.tally) :
    t.Effect st a st' t' := by
  rcases runRequest_tally action actor autoLoop st stage a with hsame | ⟨hstage, hok, hzero⟩
  · exact .of_idle (htally.trans hsame) hidle
  · have hresets : t.resets = true := by rw [Task.resets, ht, hstage]
    exact .reset (htally.trans hzero) hidle fun haccounted => hrequest haccounted hresets hok

theorem Task.Effect.of_launch {flag : InFlight} {autoLoop : Bool} {md : Metadata}
    {stage : WorkerStage} (hlaunches : stage.launches flag md st a = true)
    (hidle : (Task.worker flag autoLoop md stage).remediating = false) :
    (Task.worker flag autoLoop md stage).Effect st a (launch st flag).1
      (.worker flag autoLoop md (launch st flag).2) := by
  rcases launch_effect st flag autoLoop md with ⟨hkind, htally, hfresh⟩ | ⟨htally, hnext⟩
  · refine .dispatch htally hidle hfresh fun haccounted hguard => ?_
    obtain ⟨hauto, hblocked, hcounter, hcounted⟩ := haccounted hkind hlaunches
    -- The request has found the loop not exhausted, and its review was blocked.
    have hbelow : md.fixLoopExhausted = false := hauto.elim (hguard hkind) id
    rw [Metadata.fixLoopExhausted, hblocked, hcounter] at hbelow
    exact ⟨hcounted, by simpa using hbelow⟩
  · exact .of_idle htally hnext

end Effects

theorem runWorker_effect (flag : InFlight) (autoLoop : Bool) (md : Metadata) (st : LoopStore)
    (stage : WorkerStage) (a : LoopAnswer) :
    (Task.worker flag autoLoop md stage).Effect st a (runWorker flag md st stage a).1
      (.worker flag autoLoop md (runWorker flag md st stage a).2.1) := by
  cases stage with
  | starting =>
    simp only [runWorker]
    split_ifs with hscan
    · obtain ⟨hst, hstage⟩ :=
        startRole_other st none (show remediates .codeApproval = false from rfl)
      exact .of_idle (by rw [hst]) hstage
    · refine .of_launch ?_ rfl
      rw [WorkerStage.launches, Bool.eq_false_iff.mpr hscan]
      rfl
  | scanning role =>
    have heffect := runRole_effect st role a
    simp only [runWorker]
    split
    · exact .of_role heffect rfl rfl (by simp [Task.roleStage])
    · exact .of_role heffect rfl rfl (by simp [Task.roleStage])
    · refine .of_role heffect rfl rfl ?_
      rintro s ⟨⟩
      rfl
  | reloading =>
    rw [runWorker]
    by_cases hok : a.ok = true
    · rw [if_pos hok]
      by_cases hblocked : (if a.found then st.row.metadata else md).codeReviewBlocked = true
      · rw [if_pos hblocked]
        refine .of_launch ?_ rfl
        rw [WorkerStage.launches, hok, hblocked]
        rfl
      · rw [if_neg hblocked]
        exact .of_idle rfl rfl
    · rw [if_neg hok]
      exact .of_idle rfl rfl
  | working role =>
    have heffect := runRole_effect st role a
    simp only [runWorker]
    split
    · exact .of_role heffect rfl (tally_gap _ _) (by simp [Task.roleStage])
    · exact .of_role heffect rfl rfl (by simp [Task.roleStage])
    · refine .of_role heffect rfl rfl ?_
      rintro s ⟨⟩
      rfl
  | clearing =>
    simp only [runWorker]
    split_ifs <;> exact .of_idle rfl rfl
  | done => exact .of_idle rfl rfl

theorem runWorker_created {flag : InFlight} {md : Metadata} {st : LoopStore} {stage : WorkerStage}
    {a : LoopAnswer} {t : Task} (h : t ∈ (runWorker flag md st stage a).2.2) :
    t = .scheduler 1 .loading := by
  cases stage with
  | starting =>
    simp only [runWorker] at h
    split_ifs at h <;> cases h
  | scanning role =>
    simp only [runWorker] at h
    split at h <;> exact runRole_created h
  | reloading =>
    simp only [runWorker] at h
    split_ifs at h <;> cases h
  | working role =>
    simp only [runWorker] at h
    split at h <;> exact runRole_created h
  | clearing => cases h
  | done => cases h

theorem runCard_effect (st : LoopStore) (row : ProjectRow) (card : Card) (cards : List Card)
    (a : LoopAnswer) (stage : RunnerStage) :
    (Task.runner stage).Effect st a (runCard st row card cards a).1
      (.runner (runCard st row card cards a).2.1) := by
  have htally : (runCard st row card cards a).1.tally = st.tally := by
    unfold runCard
    dsimp only
    split_ifs <;> rfl
  exact .of_idle htally rfl

theorem runRunner_effect (st : LoopStore) (stage : RunnerStage) (a : LoopAnswer) :
    (Task.runner stage).Effect st a (runRunner st stage a).1
      (.runner (runRunner st stage a).2.1) := by
  cases stage with
  | resetting row cards request =>
    refine .of_request .resetFixLoop "pipeline_runner" true rfl rfl id ?_
    simp only [runRunner]
    split <;> rfl
  | reviewing row cards request =>
    refine .of_request .retryCodeReview "pipeline_runner" true rfl rfl id ?_
    simp only [runRunner]
    split <;> rfl
  | featuring row cards request =>
    refine .of_request .retryFeature "pipeline_runner" true rfl rfl id ?_
    simp only [runRunner]
    split <;> rfl
  | acking row cards =>
    cases cards with
    | nil => exact .of_idle rfl rfl
    | cons card cards => exact runCard_effect st row card cards a _
  | pausing =>
    simp only [runRunner]
    split_ifs <;> exact .of_idle rfl rfl
  | listing => exact .of_idle rfl rfl
  | listed row => exact .of_idle rfl rfl
  | intaking => exact .of_idle rfl rfl
  | done => exact .of_idle rfl rfl

theorem ackRole_kind {kind kind' : CardKind} {card : Option CardKind}
    (h : ackRole kind = some (kind', card)) : kind' = kind := by
  cases kind <;> cases h <;> rfl

theorem runHook_effect (st : LoopStore) (kind : CardKind) {a : LoopAnswer} (hok : a.ok = true)
    (hfound : a.found = true) :
    (Task.hook kind).Effect st a (runHook st kind).1 (runHook st kind).2 := by
  unfold runHook
  by_cases hfeature : kind = .devopsApproval ∧ st.row.operate ∧ st.row.featureActive ∧
      st.row.installOk
  · rw [if_pos hfeature]
    exact .of_idle rfl rfl
  · rw [if_neg hfeature]
    cases hrole : ackRole kind with
    | none => exact .of_idle (tally_enqueueAll _ _) rfl
    | some role =>
      obtain ⟨kind', card⟩ := role
      obtain rfl := ackRole_kind hrole
      dsimp only
      cases hkind : remediates kind' with
      | true =>
        refine .dispatch ?_ rfl (fun n hn => ?_) fun haccounted => ?_
        · rw [tally_roleTask, startRole_remediates card hkind]
          rfl
        · exact startRole_not_incrementing (roleStage_roleTask hn).symm
        · exact fun _ => haccounted hok hfound hkind
      | false =>
        obtain ⟨hst, hstage⟩ := startRole_other st card hkind
        exact .of_idle (by rw [tally_roleTask, hst]) (roleTask_idle hstage)

theorem Task.run_effect (st : LoopStore) (t : Task) (a : LoopAnswer) :
    t.Effect st a (t.run st a).1 (t.run st a).2.1 := by
  cases t with
  | hook kind =>
    simp only [Task.run]
    split_ifs with h
    · exact runHook_effect st kind h.1 h.2
    · exact .of_idle rfl rfl
  | completing =>
    simp only [Task.run]
    split_ifs <;> exact .of_idle rfl rfl
  | role stage =>
    exact .of_role (runRole_effect st stage a) rfl (tally_roleTask _ _)
      fun s hs => roleStage_roleTask hs
  | request action actor autoLoop stage =>
    exact .of_request action actor autoLoop rfl rfl id rfl
  | scheduler attempt stage =>
    refine .of_request .retryEngineerRemediate "hub" true rfl ?_ id ?_
    · simp only [Task.run]
      split
      · split_ifs <;> rfl
      · rfl
    · simp only [Task.run]
      split
      · split_ifs <;> rfl
      · rfl
  | sleeping attempt => exact .of_idle rfl rfl
  | worker flag autoLoop md stage => exact runWorker_effect flag autoLoop md st stage a
  | runner stage => exact runRunner_effect st stage a
  | status stage =>
    refine .of_idle ?_ rfl
    cases stage with
    | clearing =>
      simp only [Task.run, runClear]
      split_ifs <;> rfl
    | _ => rfl
  | done => exact .of_idle rfl rfl

/-! ## The guard stays with its request -/

theorem ackTasks_fresh {card : Card} {t : Task} (h : t ∈ ackTasks card) : t.Fresh := by
  unfold ackTasks at h
  split at h
  · obtain ⟨action, -, rfl⟩ := Option.map_eq_some_iff.mp (Option.mem_toList.mp h)
    exact ⟨trivial, rfl⟩
  · cases h
  · cases h
  · rw [List.mem_singleton.mp h]
    exact ⟨trivial, rfl⟩

theorem roleTask_guarded (st : LoopStore) (stage : RoleStage) : (roleTask st stage).2.Guarded := by
  unfold roleTask
  split <;> trivial

theorem scheduler_fresh {t : Task} (h : t = .scheduler 1 .loading) : t.Fresh := by
  rw [h]
  exact ⟨trivial, rfl⟩

theorem featureOrCards_guarded (row : ProjectRow) (cards : List Card) :
    (Task.runner (featureOrCards row cards)).Guarded := by
  unfold featureOrCards
  split_ifs <;> trivial

theorem processProject_guarded (row : ProjectRow) (cards : List Card) :
    (Task.runner (processProject row cards)).Guarded := by
  unfold processProject
  by_cases hintake : row.intakeDone = true
  · rw [if_neg (not_not.mpr hintake)]
    split
    · trivial
    · exact featureOrCards_guarded row cards
  · rw [if_pos hintake]
    trivial

theorem runCard_guarded (st : LoopStore) (row : ProjectRow) (card : Card) (cards : List Card)
    (a : LoopAnswer) :
    (Task.runner (runCard st row card cards a).2.1).Guarded ∧
      ∀ t ∈ (runCard st row card cards a).2.2, t.Fresh := by
  unfold runCard
  dsimp only
  split_ifs <;> first
    | exact ⟨trivial, fun t ht => ackTasks_fresh ht⟩
    | exact ⟨trivial, by simp⟩

theorem runRunner_guarded {st : LoopStore} {stage : RunnerStage} {a : LoopAnswer}
    (h : (Task.runner stage).Guarded) :
    (Task.runner (runRunner st stage a).2.1).Guarded ∧
      ∀ t ∈ (runRunner st stage a).2.2, t.Fresh := by
  cases stage with
  | listing =>
    refine ⟨?_, by simp [runRunner]⟩
    simp only [runRunner]
    split_ifs <;> trivial
  | listed row =>
    refine ⟨?_, by simp [runRunner]⟩
    simp only [runRunner]
    split_ifs
    · exact processProject_guarded row st.cards
    · trivial
  | intaking =>
    refine ⟨?_, by simp [runRunner]⟩
    simp only [runRunner]
    split_ifs <;> trivial
  | resetting row cards request =>
    obtain ⟨hstage, hcreated⟩ := runRequest_guarded .resetFixLoop "pipeline_runner" st a h
    simp only [runRunner]
    split
    · exact ⟨trivial, hcreated⟩
    · exact ⟨trivial, hcreated⟩
    · exact ⟨hstage, hcreated⟩
  | reviewing row cards request =>
    obtain ⟨hstage, hcreated⟩ := runRequest_guarded .retryCodeReview "pipeline_runner" st a h
    simp only [runRunner]
    split
    · exact ⟨trivial, hcreated⟩
    · exact ⟨trivial, hcreated⟩
    · exact ⟨featureOrCards_guarded row cards, hcreated⟩
    · exact ⟨hstage, hcreated⟩
  | featuring row cards request =>
    obtain ⟨hstage, hcreated⟩ := runRequest_guarded .retryFeature "pipeline_runner" st a h
    simp only [runRunner]
    split
    · exact ⟨trivial, hcreated⟩
    · exact ⟨trivial, hcreated⟩
    · exact ⟨trivial, hcreated⟩
    · exact ⟨hstage, hcreated⟩
  | acking row cards =>
    cases cards with
    | nil => exact ⟨trivial, by simp [runRunner]⟩
    | cons card cards => exact runCard_guarded st row card cards a
  | pausing => exact ⟨trivial, by simp [runRunner]⟩
  | done => exact ⟨trivial, by simp [runRunner]⟩

/-- A task keeps the guard of its request, and so do the tasks that it creates. -/
theorem Task.run_guarded (st : LoopStore) {t : Task} (a : LoopAnswer) (h : t.Guarded) :
    (t.run st a).2.1.Guarded ∧ ∀ s ∈ (t.run st a).2.2, s.Fresh := by
  cases t with
  | hook kind =>
    simp only [Task.run]
    split_ifs
    · refine ⟨?_, by simp⟩
      unfold runHook
      split
      · trivial
      · split
        · exact roleTask_guarded _ _
        · trivial
    · exact ⟨trivial, by simp⟩
  | completing =>
    simp only [Task.run]
    split_ifs <;> exact ⟨trivial, by simp⟩
  | role stage => exact ⟨roleTask_guarded _ _, fun s hs => scheduler_fresh (runRole_created hs)⟩
  | request action actor autoLoop stage => exact runRequest_guarded action actor st a h
  | scheduler attempt stage =>
    obtain ⟨hstage, hcreated⟩ := runRequest_guarded .retryEngineerRemediate "hub" st a h
    simp only [Task.run]
    split
    · split_ifs
      · exact ⟨trivial, hcreated⟩
      · exact ⟨trivial, hcreated⟩
    · exact ⟨hstage, hcreated⟩
  | sleeping attempt => exact ⟨trivial, by simp [Task.run]⟩
  | worker flag autoLoop md stage =>
    exact ⟨h, fun s hs => scheduler_fresh (runWorker_created hs)⟩
  | runner stage => exact runRunner_guarded h
  | status stage => exact ⟨trivial, by simp [Task.run]⟩
  | done => exact ⟨trivial, by simp [Task.run]⟩

/-! ## Runs -/

/-- The counter has at least what was counted, one remediation at most is not counted yet, and no
task is about to write a counter that is behind. -/
structure Bounded (l : Loop) : Prop where
  counted : l.store.counted ≤ l.store.row.metadata.codeFixIteration
  underWay : l.underWay + l.store.counted ≤ l.store.dispatched
  one : l.store.dispatched ≤ l.store.counted + 1
  bound : l.store.dispatched ≤ maxCodeFixIterations
  ahead : ∀ t ∈ l.tasks, ∀ n, t.roleStage = some (.incrementing n) → l.store.counted < n
  guarded : ∀ t ∈ l.tasks, t.Guarded

section Runs
variable {l l' : Loop} {row : ProjectRow} {cards : List Card} {nextCard : Nat}

theorem Bounded.start : Bounded (Loop.start row cards nextCard) :=
  ⟨Nat.zero_le _, Nat.zero_le _, Nat.zero_le _, Nat.zero_le _, by simp [Loop.start],
    by simp [Loop.start]⟩

theorem remediating_of_incrementing {t : Task} {n : Nat}
    (h : t.roleStage = some (.incrementing n)) : t.remediating = true := by
  rw [Task.remediating, h]
  rfl

/-- Tasks that are in no role join, and the numbers stay. -/
theorem Bounded.append {st : LoopStore} {created : List Task} (hl : Bounded l)
    (htally : st.tally = l.store.tally)
    (hcreated : ∀ t ∈ created, t.Guarded ∧ t.remediating = false) :
    Bounded ⟨st, l.tasks ++ created⟩ := by
  obtain ⟨hdispatched, hcounted, hiteration⟩ := Tally.mk.inj htally
  have hnone : created.countP Task.remediating = 0 := by
    rw [List.countP_eq_zero]
    exact fun t ht => by simp [(hcreated t ht).2]
  refine ⟨?_, ?_, ?_, ?_, ?_, ?_⟩
  · rw [hcounted, hiteration]
    exact hl.counted
  · have hunder := hl.underWay
    rw [Loop.underWay, List.countP_append, hnone, hcounted, hdispatched]
    exact hunder
  · rw [hcounted, hdispatched]
    exact hl.one
  · rw [hdispatched]
    exact hl.bound
  · intro t ht n hn
    rw [hcounted]
    rcases List.mem_append.mp ht with ht | ht
    · exact hl.ahead t ht n hn
    · exact absurd (remediating_of_incrementing hn) (by simp [(hcreated t ht).2])
  · intro t ht
    rcases List.mem_append.mp ht with ht | ht
    · exact hl.guarded t ht
    · exact (hcreated t ht).1

/-- A task has moved on, in a way that what it does is accounted for. -/
theorem Bounded.set {i : Nat} {t t' : Task} {st : LoopStore} {a : LoopAnswer} (hl : Bounded l)
    (ht : l.tasks[i]? = some t) (heffect : t.Effect l.store a st t')
    (haccounted : t.Accounted l.store a) (hguarded : t'.Guarded) :
    Bounded ⟨st, l.tasks.set i t'⟩ := by
  have hmem := List.mem_of_getElem? ht
  have hcount := countP_set_add Task.remediating t' ht
  have hset : ∀ s ∈ l.tasks.set i t', s = t' ∨ s ∈ l.tasks := fun s hs =>
    (List.mem_or_eq_of_mem_set hs).symm
  have hguard : ∀ s ∈ l.tasks.set i t', s.Guarded := by
    intro s hs
    rcases hset s hs with rfl | hs
    · exact hguarded
    · exact hl.guarded s hs
  have hunder : l.tasks.countP Task.remediating + l.store.counted ≤ l.store.dispatched :=
    hl.underWay
  have hone := hl.one
  have hbound := hl.bound
  have hcounted := hl.counted
  cases heffect with
  | quiet tally remediating fresh =>
    obtain ⟨hd, hc, hi⟩ := Tally.mk.inj tally
    have hle : t'.remediating.toNat ≤ t.remediating.toNat := by
      cases hrem : t'.remediating with
      | false => exact Nat.zero_le _
      | true => simp [remediating hrem]
    refine ⟨by simp only [hc, hi, hcounted], ?_, by simp only [hd, hc, hone],
      by simp only [hd, hbound], ?_, hguard⟩
    · simp only [Loop.underWay, hd, hc]
      omega
    · intro s hs n hn
      simp only [hc]
      rcases hset s hs with rfl | hs
      · have hn := fresh n hn
        omega
      · exact hl.ahead s hs n hn
  | dispatch tally idle fresh accounted =>
    obtain ⟨hd, hc, hi⟩ := Tally.mk.inj tally
    obtain ⟨hall, hbelow⟩ := accounted haccounted (hl.guarded t hmem)
    have hle := Bool.toNat_le t'.remediating
    rw [idle, Bool.toNat_false] at hcount
    refine ⟨by simp only [hc, hi, hcounted], ?_, ?_, ?_, ?_, hguard⟩
    · simp only [Loop.underWay, hd, hc]
      omega
    · simp only [hd, hc]
      omega
    · simp only [hd]
      omega
    · intro s hs n hn
      simp only [hc]
      rcases hset s hs with rfl | hs
      · exact absurd hn (fresh n)
      · exact hl.ahead s hs n hn
  | count n counts tally idle =>
    obtain ⟨hd, hc, hi⟩ := Tally.mk.inj tally
    have hbusy := remediating_of_incrementing counts
    have hahead := hl.ahead t hmem n counts
    rw [hbusy, idle, Bool.toNat_true, Bool.toNat_false] at hcount
    refine ⟨?_, ?_, ?_, by simp only [hd, hbound], ?_, hguard⟩
    · simp only [hc, hi]
      omega
    · simp only [Loop.underWay, hd, hc]
      omega
    · simp only [hd, hc]
      omega
    · -- This was the only remediation under way.
      intro s hs m hm
      have hother : 0 < (l.tasks.set i t').countP Task.remediating :=
        List.countP_pos_iff.mpr ⟨s, hs, remediating_of_incrementing hm⟩
      omega
  | reset tally idle accounted =>
    obtain ⟨hd, hc, hi⟩ := Tally.mk.inj tally
    have hzero := accounted haccounted
    rw [idle, Bool.toNat_false] at hcount
    refine ⟨?_, ?_, ?_, by simp only [hd, hbound], ?_, hguard⟩
    · simp only [hc, hi]
      omega
    · simp only [Loop.underWay, hd, hc]
      omega
    · simp only [hd, hc]
      omega
    · intro s hs m hm
      have hother : 0 < (l.tasks.set i t').countP Task.remediating :=
        List.countP_pos_iff.mpr ⟨s, hs, remediating_of_incrementing hm⟩
      omega

theorem bounded_step {e : LoopEvent} (hl : Bounded l) (haccounted : Accounted l e)
    (hstep : l.step e = some l') : Bounded l' := by
  cases e with
  | tick =>
    simp only [Loop.step] at hstep
    split_ifs at hstep
    obtain rfl := Option.some.inj hstep
    exact hl.append rfl (by simp [Task.Guarded, Task.remediating, Task.roleStage])
  | advance i a =>
    obtain ⟨t, ht, rfl⟩ := Option.map_eq_some_iff.mp hstep
    obtain ⟨hguarded, hcreated⟩ :=
      Task.run_guarded l.store a (hl.guarded t (List.mem_of_getElem? ht))
    have hset := hl.set ht (t.run_effect l.store a) (haccounted t ht) hguarded
    refine hset.append rfl fun s hs => ⟨(hcreated s hs).1, ?_⟩
    rw [Task.remediating, (hcreated s hs).2]
    rfl
  | clock now =>
    obtain rfl := Option.some.inj hstep
    exact ⟨hl.counted, hl.underWay, hl.one, hl.bound, hl.ahead, hl.guarded⟩
  | status =>
    obtain rfl := Option.some.inj hstep
    exact hl.append rfl (by simp [Task.Guarded, Task.remediating, Task.roleStage])
  | card kind =>
    simp only [Loop.step] at hstep
    split_ifs at hstep
    obtain rfl := Option.some.inj hstep
    exact ⟨hl.counted, hl.underWay, hl.one, hl.bound, hl.ahead, hl.guarded⟩
  | project row =>
    obtain rfl := Option.some.inj hstep
    exact ⟨hl.counted, hl.underWay, hl.one, hl.bound, hl.ahead, hl.guarded⟩
  | watch kind =>
    simp only [Loop.step] at hstep
    split_ifs at hstep with hkind
    obtain rfl := Option.some.inj hstep
    have hother : remediates kind = false := by
      have hall : ∀ kind ∈ watchKinds, remediates kind = false := by decide
      exact hall kind hkind
    obtain ⟨hst, hstage⟩ := startRole_other l.store none hother
    refine hl.append (by rw [tally_roleTask, hst]) fun t ht => ?_
    rw [List.mem_singleton.mp ht]
    exact ⟨roleTask_guarded _ _, roleTask_idle hstage⟩

/-- In every run in which each remediation is accounted for, the engineer is sent to remediate
`MAX_CODE_FIX_ITERATIONS` times at most. -/
theorem remediations_bounded {es : List LoopEvent}
    (h : Run (fun l e l' => Accounted l e ∧ l.step e = some l')
      (Loop.start row cards nextCard) es l) :
    l.store.dispatched ≤ maxCodeFixIterations := by
  have hl : Bounded l := h.invariant (I := fun _ l => Bounded l) .start
    fun hl hstep => bounded_step hl hstep.1 hstep.2
  exact hl.bound

/-- A project without a hold on any card but that of the release gate. -/
def strictProject : ProjectRow := { gates := { autonomous := true, preset := some .strict } }

def awaitingReview : Loop := Loop.start strictProject [⟨0, .codeApproval, none⟩] 1

/-- The runner acks the pending card, whose hook then starts the role. -/
def ackedByRunner (i : Nat) : List LoopEvent :=
  [.tick, .advance i {}, .advance i {}, .advance i {}, .advance i {}, .advance (i + 1) {}]

/-- The reviewer blocks; a scheduler starts, and the card that says so is enqueued. -/
def blockedReview (i : Nat) : List LoopEvent :=
  [.advance i { role := .ok (some .codeReviewBlocked) true }, .advance i {}, .advance i {}]

/-- The scheduler's request goes through, and its worker sends the engineer. -/
def scheduledRemediation (i : Nat) : List LoopEvent :=
  [.advance i {}, .advance i { allowed := [.retryEngineerRemediate] }, .advance i {},
    .advance i {}, .advance (i + 1) {}]

/-- The worker's engineer is done, which is counted, and the reviewer gets the code again. -/
def countedRemediation (i : Nat) : List LoopEvent :=
  [.advance i { role := .ok none true }, .advance i {}, .advance i {}, .advance i {}]

/-- A blocked review, and the remediation that its scheduler starts. -/
theorem remediations_bounded_scheduled :
    ∃ l : Loop, l.store.dispatched = 1 ∧ l.store.dispatched ≤ maxCodeFixIterations := by
  have hex : (((ackedByRunner 0 ++ blockedReview 1 ++ scheduledRemediation 2 ++
      countedRemediation 3).foldlM
        (fun l e => if Accounted l e then l.step e else none) awaitingReview).map fun l =>
          l.store.dispatched) = some 1 := by
    decide +kernel
  obtain ⟨l, hl, hdispatched⟩ := Option.map_eq_some_iff.mp hex
  exact ⟨l, hdispatched, remediations_bounded (Run.of_guarded_foldlM hl)⟩

/-- Each of two blocked reviews sends the engineer twice: by its scheduler, and by the card that
reports it. -/
theorem remediations_not_bounded :
    ¬ ∀ (row : ProjectRow) (cards : List Card) (nextCard : Nat) (es : List LoopEvent) (l : Loop),
      Run (fun l e l' => l.step e = some l') (Loop.start row cards nextCard) es l →
        l.store.dispatched ≤ maxCodeFixIterations := by
  intro h
  have hex : (((ackedByRunner 0 ++ blockedReview 1 ++ scheduledRemediation 2 ++ ackedByRunner 4 ++
      countedRemediation 3 ++ blockedReview 3 ++ [LoopEvent.advance 3 {}] ++
      scheduledRemediation 6 ++ ackedByRunner 8).foldlM Loop.step awaitingReview).map fun l =>
        (l.store.dispatched, l.store.row.metadata.codeFixIteration)) = some (4, 1) := by
    decide +kernel
  obtain ⟨l, hl, hnumbers⟩ := Option.map_eq_some_iff.mp hex
  have hbound := h strictProject _ 1 _ l (Run.of_foldlM id hl)
  rw [(Prod.mk.inj hnumbers).1] at hbound
  exact absurd hbound (by decide)

end Runs

end SpineFormal.Hub.FixLoop
