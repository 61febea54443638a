import Mathlib.Algebra.Order.Ring.Rat
import Mathlib.Logic.Function.Basic
import SpineFormal.Base.SlidingWindow

/-!
# The circuit breaker of the recovery manager

`check_and_recover` over any targets, with the breaker that counts the restarts of a
target in a window. The clock is read when the target is probed, when the breaker is
checked and when the restart is recorded; the restart itself falls between the last two.
Differences of clock times may be rounded.
-/

namespace SpineFormal.Runtime.AutoRecovery

open SlidingWindow
set_option autoImplicit false

/-! ## The manager -/

structure SupervisedTarget where
  name : String
  /-- `heartbeat_file` is set. -/
  heartbeatFile : Bool
  isK8sOwned : Bool

structure AutoRecoveryManager where
  targets : List SupervisedTarget
  heartbeatTimeoutS : Int
  maxRestarts : Int
  windowS : Int

/-- The numbers that a clock shows are those that rounding leaves alone. -/
structure Rounding where
  round : ℚ → ℚ
  monotone : Monotone round

def Rounding.Reading (fl : Rounding) : Type := { t : ℚ // fl.round t = t }

/-- How `kill_fn` ends. -/
inductive KillResult where
  | done
  | processLookupError
  | permissionError
  | osError
  | otherError
  deriving DecidableEq

/-- A call, with what it meets: the number in the pid file, the signals' outcomes, the time of
the heartbeat file, whether the pid file can be removed, and the clock. -/
structure Call (fl : Rounding) where
  name : String
  pid : Option Int
  signal0 : KillResult
  mtime : Option ℚ
  unlinked : Bool
  sigterm : KillResult
  probed : fl.Reading
  checked : fl.Reading
  acted : ℚ
  recorded : fl.Reading

structure LivenessProbe where
  pid : Option Int
  pidAlive : Bool
  heartbeatAgeS : Option Int
  heartbeatStale : Bool

def LivenessProbe.isHealthy (p : LivenessProbe) : Bool :=
  match p.pid with
  | none => true
  | some _ => p.pidAlive && !p.heartbeatStale

inductive RecoveryAction where
  | noop
  | restarted
  | circuitOpen
  | k8sOwned
  | missingTarget
  | killedZombie
  deriving DecidableEq

/-- A restart that the log records. -/
def RecoveryAction.restarts : RecoveryAction → Bool
  | .restarted => true
  | .killedZombie => true
  | _ => false

/-- The restart times by target. -/
abbrev RestartLog := String → List ℚ

/-- `int(x)` of a float. -/
def truncate (x : ℚ) : Int := x.num.tdiv x.den

/-- `none` is an exception that is not an `OSError`. -/
def isPidAlive : KillResult → Option Bool
  | .done => some true
  | .processLookupError => some false
  | .permissionError => some true
  | .osError => some false
  | .otherError => none

namespace AutoRecoveryManager
variable {fl : Rounding}

/-- `{t.name: t for t in targets}`: of equal names the last one. -/
def target (m : AutoRecoveryManager) (name : String) : Option SupervisedTarget :=
  m.targets.reverse.find? fun t => t.name = name

def heartbeatAge (target : SupervisedTarget) (c : Call fl) : Option Int :=
  if target.heartbeatFile then c.mtime.map fun mtime => truncate (fl.round (c.probed.1 - mtime))
  else none

/-- `probe`. -/
def probe (m : AutoRecoveryManager) (target : SupervisedTarget) (c : Call fl) :
    Option LivenessProbe :=
  let alive :=
    match c.pid with
    | none => some false
    | some pid => if pid = 0 then some false else isPidAlive c.signal0
  alive.map fun pidAlive =>
    let age := heartbeatAge target c
    ⟨c.pid, pidAlive, age, age.any fun a => m.heartbeatTimeoutS < a⟩

/-- `now - self._window_s`. -/
def cutoff (m : AutoRecoveryManager) (now : fl.Reading) : ℚ := fl.round (now.1 - m.windowS)

/-- The log after `_breaker_open` has pruned it. -/
def pruned (m : AutoRecoveryManager) (log : List ℚ) (now : fl.Reading) : List ℚ :=
  log.filter fun t => m.cutoff now ≤ t

def breakerOpen (m : AutoRecoveryManager) (log : List ℚ) : Bool := m.maxRestarts ≤ log.length

/-- Clears the pid file of a dead process or terminates a hung one; `none` is an exception. -/
def nudge (p : LivenessProbe) (c : Call fl) : Option Bool :=
  match p.pid with
  | none => some false
  | some pid =>
    if pid ≠ 0 ∧ p.pidAlive = false then some c.unlinked
    else if pid ≠ 0 ∧ p.pidAlive = true ∧ p.heartbeatStale = true then
      match c.sigterm with
      | .done => some true
      | .processLookupError => some false
      | .permissionError => some false
      | _ => none
    else some false

/-- `check_and_recover`; without an action it ends in an exception. -/
def checkAndRecover (m : AutoRecoveryManager) (log : RestartLog) (c : Call fl) :
    RestartLog × Option RecoveryAction :=
  match m.target c.name with
  | none => (log, some .missingTarget)
  | some target =>
    match m.probe target c with
    | none => (log, none)
    | some p =>
      if target.isK8sOwned then (log, some .k8sOwned)
      else if p.pid = none then (log, some .noop)
      else if p.isHealthy then (log, some .noop)
      else
        let kept := m.pruned (log c.name) c.checked
        if m.breakerOpen kept then (Function.update log c.name kept, some .circuitOpen)
        else
          match nudge p c with
          | none => (Function.update log c.name kept, none)
          | some killed =>
            (Function.update log c.name (kept ++ [c.recorded.1]),
              some (if killed then .killedZombie else .restarted))

/-- The call restarts the target. -/
def restarts (m : AutoRecoveryManager) (log : RestartLog) (name : String) (c : Call fl) : Bool :=
  c.name = name && (m.checkAndRecover log c).2.any RecoveryAction.restarts

/-- The calls of a run that restart the target. -/
def restartsOf (m : AutoRecoveryManager) (name : String) :
    RestartLog → List (Call fl) → List (Call fl)
  | _, [] => []
  | log, c :: calls =>
    let later := m.restartsOf name (m.checkAndRecover log c).1 calls
    if m.restarts log name c then c :: later else later

/-! ## One call -/

variable (m : AutoRecoveryManager) (log : RestartLog) (name : String) (c : Call fl)

/-- What a call may do to the log: nothing, prune the target's, or add a restart for which the
pruned log leaves room. -/
inductive LogStep (m : AutoRecoveryManager) (log : RestartLog) (c : Call fl) :
    RestartLog × Option RecoveryAction → Prop where
  | same {action : Option RecoveryAction} (h : action.any RecoveryAction.restarts = false) :
      LogStep m log c (log, action)
  | prune {action : Option RecoveryAction} (h : action.any RecoveryAction.restarts = false) :
      LogStep m log c (Function.update log c.name (m.pruned (log c.name) c.checked), action)
  | restart {action : RecoveryAction} (h : action.restarts = true)
      (hroom : ((m.pruned (log c.name) c.checked).length : Int) < m.maxRestarts) :
      LogStep m log c
        (Function.update log c.name (m.pruned (log c.name) c.checked ++ [c.recorded.1]),
          some action)

theorem logStep_checkAndRecover : LogStep m log c (m.checkAndRecover log c) := by
  unfold checkAndRecover
  split
  · exact .same rfl
  · split
    · exact .same rfl
    · split_ifs with hk8s hpid hhealthy
      · exact .same rfl
      · exact .same rfl
      · exact .same rfl
      · dsimp only
        split_ifs with hopen
        · exact .prune rfl
        · split
          · exact .prune rfl
          · rename_i killed _
            refine .restart (by cases killed <;> rfl) ?_
            rw [breakerOpen, decide_eq_true_eq] at hopen
            exact not_le.mp hopen

/-- What a call leaves of the log of one target. -/
theorem checkAndRecover_log :
    (m.restarts log name c = false ∧
      ((m.checkAndRecover log c).1 name = log name ∨
        (m.checkAndRecover log c).1 name = m.pruned (log name) c.checked)) ∨
    (m.restarts log name c = true ∧
      ((m.pruned (log name) c.checked).length : Int) < m.maxRestarts ∧
      (m.checkAndRecover log c).1 name = m.pruned (log name) c.checked ++ [c.recorded.1]) := by
  have hstep := logStep_checkAndRecover m log c
  rw [restarts]
  generalize m.checkAndRecover log c = r at hstep
  by_cases hname : c.name = name
  · subst hname
    cases hstep with
    | same h => exact .inl ⟨by simp [h], .inl rfl⟩
    | prune h => exact .inl ⟨by simp [h], .inr (Function.update_self ..)⟩
    | restart h hroom => exact .inr ⟨by simp [h], hroom, Function.update_self ..⟩
  · refine .inl ⟨by simp [hname], .inl ?_⟩
    cases hstep with
    | same => rfl
    | prune | restart => exact Function.update_of_ne (Ne.symm hname) ..

/-! ## Runs -/

/-- The clock's readings in the order in which a call meets them. -/
def readings (c : Call fl) : List ℚ := [c.probed.1, c.checked.1, c.acted, c.recorded.1]

/-- Over the run the clock does not go back. -/
def NonDecreasing (calls : List (Call fl)) : Prop := (calls.flatMap readings).Pairwise (· ≤ ·)

instance (calls : List (Call fl)) : Decidable (NonDecreasing calls) :=
  inferInstanceAs (Decidable (List.Pairwise _ _))

/-- The restart as the breaker sees it. -/
def permit (m : AutoRecoveryManager) (c : Call fl) : Permit ℚ :=
  ⟨m.cutoff c.checked, c.acted, c.recorded.1⟩

variable {m log name c}

theorem cutoff_mono {now later : fl.Reading} (h : now.1 ≤ later.1) :
    m.cutoff now ≤ m.cutoff later :=
  fl.monotone (sub_le_sub_right h _)

namespace NonDecreasing
variable {calls : List (Call fl)}

theorem ordered (h : NonDecreasing calls) (hc : c ∈ calls) :
    c.checked.1 ≤ c.acted ∧ c.acted ≤ c.recorded.1 := by
  have hone : (readings c).Pairwise (· ≤ ·) := (List.pairwise_flatMap.mp h).1 c hc
  simp only [readings, List.pairwise_cons, List.mem_cons, forall_eq_or_imp] at hone
  exact ⟨hone.2.1.1, hone.2.2.1.1⟩

theorem tail (h : NonDecreasing (c :: calls)) : NonDecreasing calls :=
  (List.pairwise_append.mp h).2.1

theorem checked_le (h : NonDecreasing (c :: calls)) {d : Call fl} (hd : d ∈ calls) :
    c.checked.1 ≤ d.checked.1 :=
  (List.pairwise_append.mp h).2.2 _ (by simp [readings]) _
    (List.mem_flatMap.mpr ⟨d, hd, by simp [readings]⟩)

end NonDecreasing

theorem mem_of_mem_restartsOf {calls : List (Call fl)} (h : c ∈ m.restartsOf name log calls) :
    c ∈ calls := by
  induction calls generalizing log with
  | nil => exact h
  | cons d calls ih =>
    rw [restartsOf] at h
    split at h
    · rcases List.mem_cons.mp h with rfl | h
      · exact List.mem_cons_self
      · exact List.mem_cons_of_mem d (ih h)
    · exact List.mem_cons_of_mem d (ih h)

/-- Along a run the log keeps the restarts that a later check can reach. -/
theorem admitted_restartsOf {calls : List (Call fl)} (past : List (Call fl)) (cut : ℚ)
    (h : NonDecreasing calls)
    (hcut : ∀ c ∈ calls, cut ≤ m.cutoff c.checked)
    (hkeeps : Keeps cut (log name) (past.map fun c => c.recorded.1))
    (hpast : Admitted m.maxRestarts.toNat (past.map m.permit)) :
    Admitted m.maxRestarts.toNat ((past ++ m.restartsOf name log calls).map m.permit) := by
  induction calls generalizing log past cut with
  | nil => rwa [restartsOf, List.append_nil]
  | cons c calls ih =>
    have hc : cut ≤ m.cutoff c.checked := hcut c List.mem_cons_self
    have hlater : ∀ d ∈ calls, m.cutoff c.checked ≤ m.cutoff d.checked :=
      fun d hd => cutoff_mono (h.checked_le hd)
    have hpruned : Keeps (m.cutoff c.checked) (m.pruned (log name) c.checked)
        (past.map fun c => c.recorded.1) := hkeeps.prune hc
    rw [restartsOf]
    rcases checkAndRecover_log m log name c with ⟨hno, hlog⟩ | ⟨hyes, hroom, hlog⟩
    · rw [if_neg (by simp [hno])]
      rcases hlog with hlog | hlog
      · exact ih _ _ h.tail hlater (hlog ▸ hkeeps.mono hc) hpast
      · exact ih _ _ h.tail hlater (hlog ▸ hpruned) hpast
    · have hcount : (past.map m.permit).countP (fun q => m.cutoff c.checked ≤ q.recorded) <
          m.maxRestarts.toNat := by
        have hlen : (m.pruned (log name) c.checked).length =
            (past.map m.permit).countP fun q => m.cutoff c.checked ≤ q.recorded := by
          rw [pruned, hkeeps _ hc, ← List.countP_eq_length_filter, List.countP_map, List.countP_map]
          rfl
        omega
      rw [if_pos hyes, ← List.singleton_append, ← List.append_assoc]
      refine ih _ _ h.tail hlater ?_ ?_
      · rw [hlog, List.map_append]
        exact hpruned.snoc _
      · rw [List.map_append]
        exact .snoc hpast hcount

/-- Every closed window of length `windowS` holds at most `maxRestarts` restarts of a target. -/
theorem restarts_in_window_le {calls : List (Call fl)} (h : NonDecreasing calls) (start : ℚ) :
    (m.restartsOf name (fun _ => []) calls).countP
      (fun c => start ≤ c.acted ∧ c.acted ≤ start + m.windowS) ≤ m.maxRestarts.toNat := by
  have hordered {c : Call fl} (hc : c ∈ m.restartsOf name (fun _ => []) calls) :=
    h.ordered (mem_of_mem_restartsOf hc)
  have hadmitted : Admitted m.maxRestarts.toNat
      ((m.restartsOf name (fun _ => []) calls).map m.permit) := by
    cases calls with
    | nil => exact .nil
    | cons c calls =>
      refine admitted_restartsOf [] (m.cutoff c.checked) h ?_ (.nil _) .nil
      intro d hd
      rcases List.mem_cons.mp hd with rfl | hd
      · exact le_refl _
      · exact cutoff_mono (h.checked_le hd)
  have hwindow := hadmitted.countP_window_le (m.windowS : ℚ) ?_ ?_ start
  · rwa [List.countP_map] at hwindow
  · -- a time within the window's length of the restart is not before its cutoff, rounded or not
    intro p hp q hq hle
    obtain ⟨c, hc, rfl⟩ := List.mem_map.mp hp
    obtain ⟨d, _, rfl⟩ := List.mem_map.mp hq
    have hsub : c.checked.1 - m.windowS ≤ d.recorded.1 :=
      sub_le_iff_le_add.mpr ((hordered hc).1.trans hle)
    calc m.cutoff c.checked ≤ fl.round d.recorded.1 := fl.monotone hsub
      _ = d.recorded.1 := d.recorded.2
  · intro p hp
    obtain ⟨c, hc, rfl⟩ := List.mem_map.mp hp
    exact (hordered hc).2

end AutoRecoveryManager

/-- A clock of whole seconds. -/
def wholeSeconds : Rounding where
  round t := t
  monotone := monotone_id

/-- A check that finds the process dead. -/
def deadAt (t : ℚ) : Call wholeSeconds where
  name := "heartbeat"
  pid := some 123
  signal0 := .processLookupError
  mtime := none
  unlinked := true
  sigterm := .done
  probed := ⟨t, rfl⟩
  checked := ⟨t, rfl⟩
  acted := t
  recorded := ⟨t, rfl⟩

/-- Two restarts in ten seconds. -/
def twoInTen : AutoRecoveryManager := ⟨[⟨"heartbeat", false, false⟩], 300, 2, 10⟩

def fourChecks : List (Call wholeSeconds) := [deadAt 0, deadAt 5, deadAt 10, deadAt 11]

theorem nonDecreasing_fourChecks : AutoRecoveryManager.NonDecreasing fourChecks := by
  decide +kernel

/-- Three of the checks restart the target; the one at ten seconds finds the breaker open. -/
theorem restarts_in_window_le_fourChecks :
    (twoInTen.restartsOf "heartbeat" (fun _ => []) fourChecks).map Call.acted = [0, 5, 11] ∧
    (twoInTen.restartsOf "heartbeat" (fun _ => []) fourChecks).countP
      (fun c => 0 ≤ c.acted ∧ c.acted ≤ 0 + (twoInTen.windowS : ℚ)) ≤ twoInTen.maxRestarts.toNat :=
  ⟨by decide +kernel, AutoRecoveryManager.restarts_in_window_le nonDecreasing_fourChecks 0⟩

end SpineFormal.Runtime.AutoRecovery
