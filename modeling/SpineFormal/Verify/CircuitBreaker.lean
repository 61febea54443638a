import Mathlib.Data.Rat.Floor
import Mathlib.Logic.Function.Basic
import Mathlib.Tactic.Linarith
import SpineFormal.Base.Interleaving
import SpineFormal.Base.Run

/-!
# The circuit breaker of the client

`infra/llm/client.py`: `LLMClient` keeps one breaker for each provider. Calls run interleaved,
and each of them asks the breaker once, then tells it of every attempt. What a breaker answers
can be said from the outcomes alone, without its state.
-/

namespace SpineFormal.Verify.Client

set_option autoImplicit false

/-! ## The breaker -/

inductive CircuitState where
  | closed
  | opened
  | halfOpen
  deriving DecidableEq

structure CircuitBreaker where
  failureThreshold : Int
  recoveryTimeout : Int
  failureCount : Nat
  state : CircuitState
  lastFailureTime : ℚ

def CircuitBreaker.new (failureThreshold recoveryTimeout : Int) : CircuitBreaker :=
  ⟨failureThreshold, recoveryTimeout, 0, .closed, 0⟩

def CircuitBreaker.recordSuccess (b : CircuitBreaker) : CircuitBreaker :=
  { b with failureCount := 0, state := .closed }

def CircuitBreaker.recordFailure (b : CircuitBreaker) (now : ℚ) : CircuitBreaker :=
  { b with
    failureCount := b.failureCount + 1
    lastFailureTime := now
    state := if b.failureThreshold ≤ b.failureCount + 1 then .opened else b.state }

def CircuitBreaker.allowRequest (b : CircuitBreaker) (now : ℚ) : CircuitBreaker × Bool :=
  match b.state with
  | .closed => (b, true)
  | .opened =>
    if b.recoveryTimeout < now - b.lastFailureTime then ({ b with state := .halfOpen }, true)
    else (b, false)
  | .halfOpen => (b, true)

/-! ## A call -/

/-- How a call ends. -/
inductive Ending where
  | circuitOpen
  | cacheHit
  | overBudget
  | answered
  | noCredential
  | exhausted
  deriving DecidableEq

inductive Stage where
  | entering
  /-- The breaker let the call pass, the cache is asked. -/
  | admitted
  | persistingHit
  | checkingBudget
  /-- This attempt is under way. -/
  | attempt (n : Nat)
  /-- The provider answered this attempt, the answer is written to the cache and the ledger. -/
  | persisting (n : Nat)
  | ended (ending : Ending)
  deriving DecidableEq

structure Call (P : Type) where
  provider : P
  maxRetries : Int
  stage : Stage

/-- What a call meets on its way. -/
inductive Outcome where
  | succeeded
  | failed
  | configError
  deriving DecidableEq

/-- What the breaker of a provider was told, and when. -/
inductive Told where
  | success
  | failure (time : ℚ)

def Told.time? : Told → Option ℚ
  | success => none
  | failure time => some time

variable {P : Type} [DecidableEq P]

/-- The breakers of a client; `clock` and `told` only keep a record. -/
structure LLMClient (P : Type) where
  clock : ℚ
  breakers : P → CircuitBreaker
  told : P → List Told

def LLMClient.new (failureThreshold recoveryTimeout : Int) (clock : ℚ) : LLMClient P :=
  ⟨clock, fun _ => .new failureThreshold recoveryTimeout, fun _ => []⟩

def LLMClient.recordSuccess (c : LLMClient P) (p : P) : LLMClient P :=
  { c with
    breakers := Function.update c.breakers p (c.breakers p).recordSuccess
    told := Function.update c.told p (c.told p ++ [.success]) }

def LLMClient.recordFailure (c : LLMClient P) (p : P) : LLMClient P :=
  { c with
    breakers := Function.update c.breakers p ((c.breakers p).recordFailure c.clock)
    told := Function.update c.told p (c.told p ++ [.failure c.clock]) }

/-- The turn of the loop after this one, or its end. -/
def nextAttempt (maxRetries : Int) (n : Nat) : Stage :=
  if (n : Int) < maxRetries + 1 then .attempt n else .ended .exhausted

/-- `complete` from one wait to the next. Whatever goes wrong with the cache is passed over. -/
def runCall (c : LLMClient P) (call : Call P) (outcome : Outcome) : LLMClient P × Call P :=
  let p := call.provider
  let goto := fun stage => { call with stage }
  match call.stage, outcome with
  | .entering, _ =>
    let (b, allowed) := (c.breakers p).allowRequest c.clock
    ({ c with breakers := Function.update c.breakers p b },
      goto (if allowed then .admitted else .ended .circuitOpen))
  | .admitted, .succeeded => (c.recordSuccess p, goto .persistingHit)
  | .admitted, _ => (c, goto .checkingBudget)
  | .persistingHit, .succeeded => (c, goto (.ended .cacheHit))
  | .persistingHit, _ => (c, goto .checkingBudget)
  | .checkingBudget, .succeeded => (c, goto (nextAttempt call.maxRetries 0))
  | .checkingBudget, _ => (c, goto (.ended .overBudget))
  | .attempt n, .succeeded => (c.recordSuccess p, goto (.persisting n))
  | .persisting _, .succeeded => (c, goto (.ended .answered))
  | .attempt n, .failed | .persisting n, .failed =>
    (c.recordFailure p, goto (nextAttempt call.maxRetries (n + 1)))
  | .attempt _, .configError | .persisting _, .configError => (c, goto (.ended .noCredential))
  | .ended _, _ => (c, call)

/-- A call comes in, or one goes on at a time that is not before the last step. -/
inductive Event (P : Type) where
  | complete (provider : P) (maxRetries : Int)
  | goOn (i : Nat) (now : ℚ) (outcome : Outcome)

abbrev Calls (P : Type) := Pool (LLMClient P) (Call P)

def step (s : Calls P) : Event P → Option (Calls P)
  | .complete provider maxRetries => some (s.add ⟨provider, maxRetries, .entering⟩)
  | .goOn i now outcome =>
    if s.store.clock ≤ now then
      Pool.advance (fun c call outcome => runCall { c with clock := now } call outcome) s i outcome
    else none

/-! ## What the outcomes say -/

/-- The failures since the last success. -/
def failuresInARow (told : List Told) : Nat :=
  (told.reverse.takeWhile fun t => t.time?.isSome).length

/-- The time of the last failure, zero before the first. -/
def lastFailure (told : List Told) : ℚ := (told.reverse.findSome? Told.time?).getD 0

theorem failuresInARow_success (told : List Told) : failuresInARow (told ++ [.success]) = 0 := by
  rw [failuresInARow, List.reverse_concat, List.takeWhile_cons_of_neg Bool.false_ne_true]
  rfl

theorem failuresInARow_failure (told : List Told) (time : ℚ) :
    failuresInARow (told ++ [.failure time]) = failuresInARow told + 1 := by
  rw [failuresInARow, List.reverse_concat, List.takeWhile_cons_of_pos rfl, List.length_cons,
    failuresInARow]

theorem lastFailure_success (told : List Told) :
    lastFailure (told ++ [.success]) = lastFailure told := by
  rw [lastFailure, List.reverse_concat, List.findSome?_cons_of_isNone rfl, lastFailure]

theorem lastFailure_failure (told : List Told) (time : ℚ) :
    lastFailure (told ++ [.failure time]) = time := by
  rw [lastFailure, List.reverse_concat, List.findSome?_cons_of_isSome rfl]
  rfl

/-- A breaker that was told this, seen at a time not before any of it. -/
structure Reflects (threshold timeout : Int) (now : ℚ) (told : List Told) (b : CircuitBreaker) :
    Prop where
  threshold_eq : b.failureThreshold = threshold
  timeout_eq : b.recoveryTimeout = timeout
  count : b.failureCount = failuresInARow told
  last : b.lastFailureTime = lastFailure told
  closed : b.state = .closed ↔ (failuresInARow told : Int) < threshold
  halfOpen : b.state = .halfOpen → timeout < now - lastFailure told

theorem Reflects.later {threshold timeout : Int} {now later : ℚ} {told : List Told}
    {b : CircuitBreaker} (h : Reflects threshold timeout now told b) (hlater : now ≤ later) :
    Reflects threshold timeout later told b := by
  obtain ⟨hthreshold, htimeout, hcount, hlast, hclosed, hhalf⟩ := h
  refine ⟨hthreshold, htimeout, hcount, hlast, hclosed, fun hstate => ?_⟩
  have hnow := hhalf hstate
  linarith

theorem reflects_new {threshold : Int} (hpos : 0 < threshold) (timeout : Int) (now : ℚ) :
    Reflects threshold timeout now [] (.new threshold timeout) where
  threshold_eq := rfl
  timeout_eq := rfl
  count := rfl
  last := rfl
  closed := iff_of_true rfl hpos
  halfOpen := fun h => nomatch h

theorem reflects_recordSuccess {threshold timeout : Int} (hpos : 0 < threshold) {now : ℚ}
    {told : List Told} {b : CircuitBreaker} (h : Reflects threshold timeout now told b) :
    Reflects threshold timeout now (told ++ [.success]) b.recordSuccess where
  threshold_eq := h.threshold_eq
  timeout_eq := h.timeout_eq
  count := (failuresInARow_success told).symm
  last := h.last.trans (lastFailure_success told).symm
  closed := by
    rw [failuresInARow_success]
    exact iff_of_true rfl hpos
  halfOpen := fun h => nomatch h

theorem reflects_recordFailure {threshold timeout : Int} {now : ℚ} {told : List Told}
    {b : CircuitBreaker} (h : Reflects threshold timeout now told b) :
    Reflects threshold timeout now (told ++ [.failure now]) (b.recordFailure now) := by
  have hcount : (failuresInARow (told ++ [.failure now]) : Int) = b.failureCount + 1 := by
    rw [failuresInARow_failure, h.count]
    rfl
  have hstate : (b.recordFailure now).state =
      if threshold ≤ b.failureCount + 1 then .opened else b.state := by
    rw [← h.threshold_eq]
    rfl
  refine ⟨h.threshold_eq, h.timeout_eq, ?_, (lastFailure_failure told now).symm, ?_, ?_⟩
  · rw [failuresInARow_failure, ← h.count]
    rfl
  · rw [hcount, hstate]
    split
    · rename_i hreached
      exact iff_of_false (fun hno => nomatch hno) (not_lt.mpr hreached)
    · rename_i hbelow
      have hclosed : (failuresInARow told : Int) < threshold := by
        rw [← h.count]
        omega
      exact iff_of_true (h.closed.mpr hclosed) (not_le.mp hbelow)
  · rw [hstate]
    split
    · exact fun hno => nomatch hno
    · rename_i hbelow
      intro hhalf
      have hclosed : b.state = .closed := by
        apply h.closed.mpr
        rw [← h.count]
        omega
      rw [hclosed] at hhalf
      cases hhalf

/-- The answer of a breaker, from what it was told. -/
theorem allowRequest_iff {threshold timeout : Int} {now : ℚ} {told : List Told} {b : CircuitBreaker}
    (h : Reflects threshold timeout now told b) :
    (b.allowRequest now).2 = true ↔
      (failuresInARow told : Int) < threshold ∨ timeout < now - lastFailure told := by
  unfold CircuitBreaker.allowRequest
  cases hstate : b.state with
  | closed => exact iff_of_true rfl (.inl (h.closed.mp hstate))
  | opened =>
    have hreached : ¬ (failuresInARow told : Int) < threshold := fun hno => by
      rw [h.closed.mpr hno] at hstate
      cases hstate
    dsimp only
    rw [or_iff_right hreached, ← h.timeout_eq, ← h.last]
    split
    · rename_i hlate
      exact iff_of_true rfl hlate
    · rename_i hearly
      exact iff_of_false Bool.false_ne_true hearly
  | halfOpen => exact iff_of_true rfl (.inr (h.halfOpen hstate))

theorem reflects_allowRequest {threshold timeout : Int} {now : ℚ} {told : List Told}
    {b : CircuitBreaker} (h : Reflects threshold timeout now told b) :
    Reflects threshold timeout now told (b.allowRequest now).1 := by
  unfold CircuitBreaker.allowRequest
  cases hstate : b.state with
  | closed | halfOpen => exact h
  | opened =>
    dsimp only
    split
    · rename_i hlate
      rw [h.timeout_eq, h.last] at hlate
      refine ⟨h.threshold_eq, h.timeout_eq, h.count, h.last, ?_, fun _ => hlate⟩
      apply iff_of_false (fun hno => nomatch hno)
      intro hno
      rw [h.closed.mpr hno] at hstate
      cases hstate
    · exact h

/-! ## Any number of calls -/

/-- Every breaker answers by what it was told, and no call is past its last attempt. -/
structure Sound (threshold timeout : Int) (s : Calls P) : Prop where
  reflects : ∀ p, Reflects threshold timeout s.store.clock (s.store.told p) (s.store.breakers p)
  attempts : ∀ call ∈ s.sessions, ∀ n, call.stage = .attempt n ∨ call.stage = .persisting n →
    (n : Int) ≤ call.maxRetries

variable {threshold timeout : Int}

theorem reflects_update {now : ℚ} {told : P → List Told} {breakers : P → CircuitBreaker}
    (h : ∀ p, Reflects threshold timeout now (told p) (breakers p)) (p : P) {t : List Told}
    {b : CircuitBreaker} (hp : Reflects threshold timeout now t b) (p' : P) :
    Reflects threshold timeout now (Function.update told p t p') (Function.update breakers p b p') := by
  by_cases hp' : p' = p
  · subst hp'
    rw [Function.update_self, Function.update_self]
    exact hp
  · rw [Function.update_of_ne hp', Function.update_of_ne hp']
    exact h p'

theorem nextAttempt_le {maxRetries : Int} {m n : Nat}
    (h : nextAttempt maxRetries m = .attempt n ∨ nextAttempt maxRetries m = .persisting n) :
    (n : Int) ≤ maxRetries := by
  unfold nextAttempt at h
  split at h
  · rename_i hm
    rcases h with h | h
    · obtain rfl := Stage.attempt.inj h
      omega
    · cases h
  · rcases h with h | h <;> cases h

/-- The breakers of a client after a step. -/
def ReflectsAll (threshold timeout : Int) (c : LLMClient P) : Prop :=
  ∀ p, Reflects threshold timeout c.clock (c.told p) (c.breakers p)

theorem reflectsAll_recordSuccess (hpos : 0 < threshold) {c : LLMClient P}
    (h : ReflectsAll threshold timeout c) (p : P) :
    ReflectsAll threshold timeout (c.recordSuccess p) :=
  reflects_update h p (reflects_recordSuccess hpos (h p))

theorem reflectsAll_recordFailure {c : LLMClient P} (h : ReflectsAll threshold timeout c) (p : P) :
    ReflectsAll threshold timeout (c.recordFailure p) :=
  reflects_update h p (reflects_recordFailure (h p))

theorem reflectsAll_allowRequest {c : LLMClient P} (h : ReflectsAll threshold timeout c) (p : P) :
    ReflectsAll threshold timeout { c with
      breakers := Function.update c.breakers p ((c.breakers p).allowRequest c.clock).1 } := by
  have hp := reflects_update h p (reflects_allowRequest (h p))
  rw [Function.update_eq_self] at hp
  exact hp

theorem reflectsAll_runCall (hpos : 0 < threshold) {c : LLMClient P}
    (h : ReflectsAll threshold timeout c) (call : Call P) (outcome : Outcome) :
    ReflectsAll threshold timeout (runCall c call outcome).1 := by
  have hsuccess := reflectsAll_recordSuccess hpos h call.provider
  have hfailure := reflectsAll_recordFailure h call.provider
  unfold runCall
  cases call.stage with
  | entering => exact reflectsAll_allowRequest h call.provider
  | admitted =>
    cases outcome with
    | succeeded => exact hsuccess
    | failed | configError => exact h
  | attempt n =>
    cases outcome with
    | succeeded => exact hsuccess
    | failed => exact hfailure
    | configError => exact h
  | persisting n =>
    cases outcome with
    | failed => exact hfailure
    | succeeded | configError => exact h
  | persistingHit | checkingBudget => cases outcome <;> exact h
  | ended ending => exact h

theorem runCall_maxRetries (c : LLMClient P) (call : Call P) (outcome : Outcome) :
    (runCall c call outcome).2.maxRetries = call.maxRetries := by
  unfold runCall
  cases call.stage with
  | entering | ended _ => rfl
  | admitted | persistingHit | checkingBudget | attempt _ | persisting _ => cases outcome <;> rfl

theorem runCall_attempts {c : LLMClient P} {call : Call P} {outcome : Outcome}
    (h : ∀ n, call.stage = .attempt n ∨ call.stage = .persisting n → (n : Int) ≤ call.maxRetries)
    (n : Nat) (hn : (runCall c call outcome).2.stage = .attempt n ∨
      (runCall c call outcome).2.stage = .persisting n) : (n : Int) ≤ call.maxRetries := by
  unfold runCall at hn
  cases hstage : call.stage with
  | entering =>
    rw [hstage] at hn
    dsimp only at hn
    split at hn <;> rcases hn with hn | hn <;> cases hn
  | admitted | persistingHit =>
    rw [hstage] at hn
    cases outcome <;> rcases hn with hn | hn <;> cases hn
  | checkingBudget =>
    rw [hstage] at hn
    cases outcome with
    | succeeded => exact nextAttempt_le hn
    | failed | configError => rcases hn with hn | hn <;> cases hn
  | attempt m =>
    rw [hstage] at hn
    cases outcome with
    | succeeded =>
      rcases hn with hn | hn
      · cases hn
      · obtain rfl := Stage.persisting.inj hn
        exact h m (.inl hstage)
    | failed => exact nextAttempt_le hn
    | configError => rcases hn with hn | hn <;> cases hn
  | persisting m =>
    rw [hstage] at hn
    cases outcome with
    | failed => exact nextAttempt_le hn
    | succeeded | configError => rcases hn with hn | hn <;> cases hn
  | ended ending =>
    rw [hstage] at hn
    exact h n hn

theorem sound_step (hpos : 0 < threshold) {s t : Calls P} {e : Event P}
    (hs : Sound threshold timeout s) (h : step s e = some t) : Sound threshold timeout t := by
  cases e with
  | complete provider maxRetries =>
    obtain rfl := Option.some.inj h
    refine ⟨hs.reflects, List.forall_mem_append.mpr ⟨hs.attempts, ?_⟩⟩
    intro call hcall n hn
    rw [List.mem_singleton.mp hcall] at hn
    rcases hn with hn | hn <;> cases hn
  | goOn i now outcome =>
    have hstep : (if s.store.clock ≤ now then
        Pool.advance (fun c call outcome => runCall { c with clock := now } call outcome) s i outcome
      else none) = some t := h
    split at hstep
    · rename_i hnow
      obtain ⟨pre, call, post, -, hsplit, rfl⟩ := Pool.advance_split hstep
      obtain ⟨hreflects, hattempts⟩ := hs
      rw [hsplit] at hattempts
      have hclock : ReflectsAll threshold timeout { s.store with clock := now } := fun p =>
        (hreflects p).later hnow
      refine ⟨reflectsAll_runCall hpos hclock call outcome, forall_mem_replace hattempts ?_⟩
      intro n hn
      rw [runCall_maxRetries]
      exact runCall_attempts (hattempts call (List.mem_append_right pre List.mem_cons_self)) n hn
    · cases hstep

/-- At any time of any interleaving of calls the breaker of a provider lets a call pass exactly
when the provider failed fewer times in a row than the threshold, or its last failure is longer
ago than the timeout; then it lets every call pass until the next failure. No call goes on after
its last attempt. -/
theorem breaker_reflects_outcomes (hpos : 0 < threshold) {clock : ℚ} {es : List (Event P)}
    {s : Calls P} (hrun : Run (fun s e t => step s e = some t)
      ⟨LLMClient.new threshold timeout clock, []⟩ es s) :
    (∀ p, ∀ now, s.store.clock ≤ now → (((s.store.breakers p).allowRequest now).2 = true ↔
      (failuresInARow (s.store.told p) : Int) < threshold ∨
        timeout < now - lastFailure (s.store.told p))) ∧
      ∀ call ∈ s.sessions, ∀ n, call.stage = .attempt n ∨ call.stage = .persisting n →
        (n : Int) ≤ call.maxRetries := by
  have hs : Sound threshold timeout s := by
    refine hrun.invariant (I := fun _ s => Sound threshold timeout s) ⟨?_, ?_⟩ fun hs hstep =>
      sound_step hpos hs hstep
    · exact fun _ => reflects_new hpos timeout clock
    · exact fun _ hcall => absurd hcall List.not_mem_nil
  exact ⟨fun p now hnow => allowRequest_iff ((hs.reflects p).later hnow), hs.attempts⟩

/-- One call to the only provider, which is down. -/
def failingCall : List (Event Unit) :=
  [.complete () 0, .goOn 0 1 .succeeded, .goOn 0 1 .failed, .goOn 0 1 .succeeded, .goOn 0 2 .failed]

theorem breaker_reflects_outcomes_failingCall :
    ∃ s, failingCall.foldlM step ⟨LLMClient.new 1 60 0, []⟩ = some s ∧
      (∀ p, ∀ now, s.store.clock ≤ now → (((s.store.breakers p).allowRequest now).2 = true ↔
        (failuresInARow (s.store.told p) : Int) < 1 ∨
          ((60 : Int) : ℚ) < now - lastFailure (s.store.told p))) ∧
        ∀ call ∈ s.sessions, ∀ n, call.stage = .attempt n ∨ call.stage = .persisting n →
          (n : Int) ≤ call.maxRetries := by
  have hsome : (failingCall.foldlM step ⟨LLMClient.new 1 60 0, []⟩).isSome = true := by
    decide +kernel
  obtain ⟨s, hs⟩ := Option.isSome_iff_exists.mp hsome
  have hrun : Run (fun s e t => step s e = some t) _ failingCall s := Run.of_foldlM id hs
  exact ⟨s, hs, breaker_reflects_outcomes (by decide) hrun⟩

end SpineFormal.Verify.Client
