import Mathlib.Algebra.Order.Ring.Rat
import Mathlib.Data.Rat.Floor
import Mathlib.Logic.Function.Basic
import SpineFormal.Base.Sha256

/-!
# The notifier

`notify` sends an event through every channel unless the channel's rate-limit key was used
within the window, by this process or by one that shares the ledger in the database. What a
channel answers, the clock and the ledger's availability are inputs.
-/

namespace SpineFormal.Notify

set_option autoImplicit false

inductive EventType where
  | approvalPending
  | approvalGranted
  | approvalRejected
  | verifyFailed
  | projectBlocked
  | budgetWarning
  | budgetExceeded
  | phaseAdvanced
  deriving DecidableEq

def EventType.text : EventType → String
  | .approvalPending => "approval_pending"
  | .approvalGranted => "approval_granted"
  | .approvalRejected => "approval_rejected"
  | .verifyFailed => "verify_failed"
  | .projectBlocked => "project_blocked"
  | .budgetWarning => "budget_warning"
  | .budgetExceeded => "budget_exceeded"
  | .phaseAdvanced => "phase_advanced"

/-- `content` is what only the channels read. -/
structure NotificationEvent (Content : Type) where
  eventType : EventType
  projectId : String
  content : Content

structure NotifyResult where
  channel : String
  sent : Bool
  error : Option String
  durationMs : ℤ
  rateLimited : Bool

inductive SendOutcome where
  | returned (result : NotifyResult)
  | raised (typeName text : String)

structure NotifyChannel (Content : Type) where
  name : String
  send : NotificationEvent Content → SendOutcome

/-- The event type, the project and the recipient. -/
abbrev RateKey := EventType × String × String

def rateKey {Content : Type} (event : NotificationEvent Content) (recipient : String) : RateKey :=
  (event.eventType, event.projectId, recipient)

/-- `":".join(key)`. -/
def joinKey (key : RateKey) : String := key.1.text ++ ":" ++ key.2.1 ++ ":" ++ key.2.2

/-! ## The ledger -/

/-- How differences of clock times are rounded, and how psql reads a bound value back, if its
script runs. -/
structure Surroundings where
  round : ℚ → ℚ
  readBack : String → Option String

structure LedgerRow where
  flagName : String
  periodStart : ℤ
  periodEnd : ℤ
  ledgerAnchor : String
  deriving DecidableEq

/-- A call to the database: the clock, and whether it is reached. -/
structure LedgerCall where
  now : ℚ
  reached : Bool

def flagName (channel : String) (eventType : EventType) : Option String :=
  if channel = "" then none else some ("notify." ++ channel ++ "." ++ eventType.text)

/-- The seconds that a `datetime` can show. -/
def isTimestamp (t : ℤ) : Bool := decide (-62135596800 ≤ t) && decide (t < 253402300800)

def periodFor (now : ℚ) (windowSeconds : ℤ) : Option (ℤ × ℤ) :=
  let epoch := now.num.tdiv now.den
  let bucket := epoch - epoch % max windowSeconds 1
  if isTimestamp bucket && isTimestamp (bucket + windowSeconds) then
    some (bucket, bucket + windowSeconds)
  else none

def recipientHash (key : String) : String := String.ofList ((hexdigest key.toList).toList.take 16)

namespace Surroundings

/-- The row of a key in the period of a call. -/
def ledgerRow (w : Surroundings) (windowSeconds : ℤ) (key : RateKey) (call : LedgerCall) :
    Option LedgerRow := do
  let flag ← flagName key.2.2 key.1
  let period ← periodFor call.now windowSeconds
  let flag ← w.readBack flag
  if call.reached then some ⟨flag, period.1, period.2, recipientHash (joinKey key)⟩ else none

/-- `rate_limit.check`, where whatever fails lets the event through. -/
def check (w : Surroundings) (windowSeconds : ℤ) (ledger : List LedgerRow) (key : RateKey)
    (call : LedgerCall) : Bool :=
  match w.ledgerRow windowSeconds key call with
  | some row => decide (row ∈ ledger)
  | none => false

/-- `rate_limit.mark`: the table takes periods that end after they start. -/
def mark (w : Surroundings) (windowSeconds : ℤ) (ledger : List LedgerRow) (key : RateKey)
    (call : LedgerCall) : List LedgerRow :=
  match w.ledgerRow windowSeconds key call with
  | some row => if row.periodStart < row.periodEnd then ledger ++ [row] else ledger
  | none => ledger

end Surroundings

/-! ## The notifier -/

/-- The clock and the ledger during one channel's turn. -/
structure Turn where
  checkedAt : ℚ
  check : LedgerCall
  startedAt : ℚ
  endedAt : ℚ
  markedAt : ℚ
  mark : LedgerCall

structure RateState where
  rateLog : RateKey → Option ℚ
  ledger : List LedgerRow

def RateState.empty : RateState := ⟨fun _ => none, []⟩

/-- A channel with its turn. -/
abbrev Move (Content : Type) := NotifyChannel Content × Turn

section
variable {Content : Type} (w : Surroundings) (windowSeconds : ℤ)

def isRateLimited (s : RateState) (key : RateKey) (t : Turn) : Bool :=
  match s.rateLog key with
  | some last =>
    decide (w.round (t.checkedAt - last) < windowSeconds) ||
      w.check windowSeconds s.ledger key t.check
  | none => w.check windowSeconds s.ledger key t.check

def markSent (s : RateState) (key : RateKey) (t : Turn) : RateState where
  rateLog := Function.update s.rateLog key (some t.markedAt)
  ledger := w.mark windowSeconds s.ledger key t.mark

/-- `int((time.time() - start) * 1000)`. -/
def durationMs (t : Turn) : ℤ :=
  let ms := w.round (w.round (t.endedAt - t.startedAt) * 1000)
  ms.num.tdiv ms.den

/-- The recipients that rate limiting knows. -/
def recipientsOf (audience : List String) (channels : List (NotifyChannel Content)) :
    List String :=
  if audience = [] then channels.map NotifyChannel.name else audience

def recipientFor (recipients : List String) (ch : NotifyChannel Content) : String :=
  match recipients with
  | [recipient] => recipient
  | _ => ch.name

/-- One channel's turn: what is reported, whether it was sent to, and the state after. -/
def attempt (event : NotificationEvent Content) (recipients : List String) (s : RateState)
    (m : Move Content) : NotifyResult × Bool × RateState :=
  let key := rateKey event (recipientFor recipients m.1)
  if isRateLimited w windowSeconds s key m.2 then
    (⟨m.1.name, false, some "rate_limited", 0, true⟩, false, s)
  else
    match m.1.send event with
    | .returned result =>
      let result :=
        if result.durationMs = 0 then { result with durationMs := durationMs w m.2 } else result
      (result, true, if result.sent then markSent w windowSeconds s key m.2 else s)
    | .raised typeName text =>
      (⟨m.1.name, false, some (typeName ++ ": " ++ text), durationMs w m.2, false⟩, true, s)

/-- The results and the channels that were sent to, in order. -/
def fanOut (event : NotificationEvent Content) (recipients : List String) (s : RateState) :
    List (Move Content) → List NotifyResult × List (NotifyChannel Content)
  | [] => ([], [])
  | m :: ms =>
    let turn := attempt w windowSeconds event recipients s m
    let rest := fanOut event recipients turn.2.2 ms
    (turn.1 :: rest.1, if turn.2.1 then m.1 :: rest.2 else rest.2)

/-- No audience and an empty one are the same. -/
def notify (event : NotificationEvent Content) (audience : List String) (s : RateState)
    (moves : List (Move Content)) : List NotifyResult × List (NotifyChannel Content) :=
  fanOut w windowSeconds event (recipientsOf audience (moves.map Prod.fst)) s moves

/-! ## Which channels an earlier one stands in the way of -/

def NotifyChannel.accepts (event : NotificationEvent Content) (ch : NotifyChannel Content) : Bool :=
  match ch.send event with
  | .returned result => result.sent
  | .raised _ _ => false

def keyOf (event : NotificationEvent Content) (recipients : List String) (m : Move Content) :
    RateKey := rateKey event (recipientFor recipients m.1)

/-- When the last of the channels that accept under the key was recorded. -/
def lastMark (event : NotificationEvent Content) (recipients : List String)
    (before : List (Move Content)) (key : RateKey) : Option ℚ :=
  ((before.filter fun m =>
    m.1.accepts event && decide (keyOf event recipients m = key)).getLast?).map
      fun m => m.2.markedAt

/-- The rows that the channels that accept leave in the ledger. -/
def rowsMarked (event : NotificationEvent Content) (recipients : List String)
    (before : List (Move Content)) : List LedgerRow :=
  (before.filter fun m => m.1.accepts event).foldl
    (fun ledger m => w.mark windowSeconds ledger (keyOf event recipients m) m.2.mark) []

/-- The last acceptance under the same key is within the window, or the ledger shows one. -/
def Blocked (event : NotificationEvent Content) (recipients : List String)
    (before : List (Move Content)) (m : Move Content) : Prop :=
  (∃ last, lastMark event recipients before (keyOf event recipients m) = some last ∧
      w.round (m.2.checkedAt - last) < windowSeconds) ∨
    ∃ row ∈ rowsMarked w windowSeconds event recipients before,
      w.ledgerRow windowSeconds (keyOf event recipients m) m.2.check = some row

/-- The state after channels that were all sent to. -/
def stateAfter (event : NotificationEvent Content) (recipients : List String)
    (before : List (Move Content)) : RateState :=
  ⟨lastMark event recipients before, rowsMarked w windowSeconds event recipients before⟩

variable {w windowSeconds} {event : NotificationEvent Content} {recipients : List String}
  {before : List (Move Content)} {m : Move Content}

theorem isRateLimited_stateAfter :
    isRateLimited w windowSeconds (stateAfter w windowSeconds event recipients before)
        (keyOf event recipients m) m.2 = true ↔
      Blocked w windowSeconds event recipients before m := by
  have hcheck : w.check windowSeconds (rowsMarked w windowSeconds event recipients before)
      (keyOf event recipients m) m.2.check = true ↔
        ∃ row ∈ rowsMarked w windowSeconds event recipients before,
          w.ledgerRow windowSeconds (keyOf event recipients m) m.2.check = some row := by
    rw [Surroundings.check]
    cases w.ledgerRow windowSeconds (keyOf event recipients m) m.2.check with
    | none => simp
    | some row => simp
  rw [Blocked, ← hcheck, isRateLimited, stateAfter]
  cases hlast : lastMark event recipients before (keyOf event recipients m) with
  | none => simp [hlast]
  | some last => simp [hlast]

theorem stateAfter_append_refusing (h : m.1.accepts event = false) :
    stateAfter w windowSeconds event recipients (before ++ [m]) =
      stateAfter w windowSeconds event recipients before := by
  rw [stateAfter, stateAfter, rowsMarked, rowsMarked, List.filter_append]
  congr 1
  · funext key
    rw [lastMark, lastMark, List.filter_append]
    simp [h]
  · simp [h]

theorem stateAfter_append_accepting (h : m.1.accepts event = true) :
    stateAfter w windowSeconds event recipients (before ++ [m]) =
      markSent w windowSeconds (stateAfter w windowSeconds event recipients before)
        (keyOf event recipients m) m.2 := by
  rw [stateAfter, markSent, stateAfter]
  congr 1
  · funext key
    by_cases hkey : key = keyOf event recipients m
    · subst hkey
      rw [Function.update_self, lastMark, List.filter_append]
      simp [h]
    · rw [Function.update_of_ne hkey]
      simp [lastMark, List.filter_append, h, Ne.symm hkey]
  · rw [rowsMarked, rowsMarked, List.filter_append]
    simp [h]

/-! ## The fan-out -/

/-- What a channel's turn comes to. -/
theorem attempt_spec (w : Surroundings) (windowSeconds : ℤ) (event : NotificationEvent Content)
    (recipients : List String) (before : List (Move Content)) (m : Move Content) :
    (Blocked w windowSeconds event recipients before m ∧
        (attempt w windowSeconds event recipients
          (stateAfter w windowSeconds event recipients before) m).2.1 = false) ∨
      (¬Blocked w windowSeconds event recipients before m ∧
        (attempt w windowSeconds event recipients
          (stateAfter w windowSeconds event recipients before) m).2.1 = true ∧
        (attempt w windowSeconds event recipients
          (stateAfter w windowSeconds event recipients before) m).2.2 =
            stateAfter w windowSeconds event recipients (before ++ [m]) ∧
        (m.1.accepts event = true → (attempt w windowSeconds event recipients
          (stateAfter w windowSeconds event recipients before) m).1.sent = true)) := by
  by_cases hlimited : isRateLimited w windowSeconds
      (stateAfter w windowSeconds event recipients before) (keyOf event recipients m) m.2 = true
  · refine Or.inl ⟨isRateLimited_stateAfter.mp hlimited, ?_⟩
    rw [attempt, ← keyOf, if_pos hlimited]
  · refine Or.inr ⟨fun h => hlimited (isRateLimited_stateAfter.mpr h), ?_⟩
    rw [attempt, ← keyOf, if_neg hlimited]
    cases hsend : m.1.send event with
    | raised typeName text =>
      have hrefuses : m.1.accepts event = false := by rw [NotifyChannel.accepts, hsend]
      exact ⟨rfl, (stateAfter_append_refusing hrefuses).symm, fun h => by simp [hrefuses] at h⟩
    | returned result =>
      have haccepts : m.1.accepts event = result.sent := by rw [NotifyChannel.accepts, hsend]
      refine ⟨rfl, ?_, fun h => ?_⟩
      · cases hsent : m.1.accepts event with
        | false =>
          rw [stateAfter_append_refusing hsent]
          rw [haccepts] at hsent
          by_cases hduration : result.durationMs = 0 <;> simp [hduration, hsent]
        | true =>
          rw [stateAfter_append_accepting hsent]
          rw [haccepts] at hsent
          by_cases hduration : result.durationMs = 0 <;> simp [hduration, hsent]
      · rw [haccepts] at h
        by_cases hduration : result.durationMs = 0 <;> simp [hduration, h]

/-- Every channel is sent to, in order and once, and who accepts is reported as sent. -/
def FansOut (event : NotificationEvent Content) (moves : List (Move Content))
    (outcome : List NotifyResult × List (NotifyChannel Content)) : Prop :=
  outcome.2 = moves.map Prod.fst ∧
    List.Forall₂ (fun m result => m.1.accepts event = true → result.sent = true) moves outcome.1

theorem fanOut_sends_length_le (w : Surroundings) (windowSeconds : ℤ)
    (event : NotificationEvent Content) (recipients : List String) (s : RateState)
    (moves : List (Move Content)) :
    (fanOut w windowSeconds event recipients s moves).2.length ≤ moves.length := by
  induction moves generalizing s with
  | nil => exact le_refl _
  | cons m ms ih =>
    rw [fanOut]
    have hrest := ih (attempt w windowSeconds event recipients s m).2.2
    split
    · simpa using hrest
    · exact hrest.trans (Nat.le_succ _)

theorem fanOut_iff (before moves : List (Move Content)) :
    FansOut event moves (fanOut w windowSeconds event recipients
        (stateAfter w windowSeconds event recipients before) moves) ↔
      ∀ mid m after, moves = mid ++ m :: after →
        ¬Blocked w windowSeconds event recipients (before ++ mid) m := by
  induction moves generalizing before with
  | nil => simp [FansOut, fanOut]
  | cons m ms ih =>
    have hsplit : (∀ mid m' after, m :: ms = mid ++ m' :: after →
          ¬Blocked w windowSeconds event recipients (before ++ mid) m') ↔
        ¬Blocked w windowSeconds event recipients before m ∧
          ∀ mid m' after, ms = mid ++ m' :: after →
            ¬Blocked w windowSeconds event recipients ((before ++ [m]) ++ mid) m' := by
      constructor
      · intro h
        refine ⟨by simpa using h [] m ms rfl, fun mid m' after heq => ?_⟩
        simpa using h (m :: mid) m' after (by rw [heq]; rfl)
      · rintro ⟨hfirst, hrest⟩ mid m' after heq
        cases mid with
        | nil =>
          obtain ⟨rfl, rfl⟩ := List.cons.inj heq
          simpa using hfirst
        | cons n mid =>
          obtain ⟨rfl, hms⟩ := List.cons.inj heq
          simpa using hrest mid m' after hms
    rw [hsplit, fanOut]
    rcases attempt_spec w windowSeconds event recipients before m with
      ⟨hblocked, hunsent⟩ | ⟨hclear, hsent, hafter, hreport⟩
    · -- One channel less has been sent to.
      refine iff_of_false (fun h => ?_) (fun h => h.1 hblocked)
      have hlength := congrArg List.length h.1
      have hrest := fanOut_sends_length_le w windowSeconds event recipients
        (attempt w windowSeconds event recipients
          (stateAfter w windowSeconds event recipients before) m).2.2 ms
      simp only [hunsent, Bool.false_eq_true, if_false, List.length_map, List.length_cons]
        at hlength
      omega
    · rw [hafter, ← ih, and_iff_right hclear, FansOut, FansOut, List.forall₂_cons]
      simp only [hsent, if_true, List.map_cons, List.cons_inj_right]
      tauto

/-- From a state without sends, a notifier reaches every channel exactly if none is blocked by the
ones before. -/
theorem notify_fansOut_iff (w : Surroundings) (windowSeconds : ℤ)
    (event : NotificationEvent Content) (audience : List String) (moves : List (Move Content)) :
    FansOut event moves (notify w windowSeconds event audience RateState.empty moves) ↔
      ∀ before m after, moves = before ++ m :: after →
        ¬Blocked w windowSeconds event (recipientsOf audience (moves.map Prod.fst)) before m :=
  fanOut_iff [] moves

end

def acceptingChannel (name : String) : NotifyChannel Unit :=
  ⟨name, fun _ => .returned ⟨name, true, none, 0, false⟩⟩

/-- A turn that takes no time and does not reach the database. -/
def Turn.atOnce : Turn := ⟨0, ⟨0, false⟩, 0, 0, 0, ⟨0, false⟩⟩

/-- Two channels and one recipient: the second channel is not sent to. -/
theorem one_recipient_silences :
    let w : Surroundings := ⟨id, fun _ => none⟩
    let event : NotificationEvent Unit := ⟨.verifyFailed, "p1", ()⟩
    let moves := [(acceptingChannel "slack", Turn.atOnce), (acceptingChannel "email", Turn.atOnce)]
    (∀ m ∈ moves, m.1.accepts event = true) ∧
      ¬FansOut event moves (notify w 300 event ["ops"] RateState.empty moves) := by
  intro w event moves
  refine ⟨by simp [moves, event, acceptingChannel, NotifyChannel.accepts], fun h => ?_⟩
  have hlength : (notify w 300 event ["ops"] RateState.empty moves).2.length = 1 := by
    decide +kernel
  rw [h.1] at hlength
  exact absurd hlength (by decide)

end SpineFormal.Notify
