import SpineFormal.Base.Run
import Mathlib.Data.List.Basic

/-!
# Watchdog and recovery of one supervised target

`watchdog.sh` restarts what died, and `check_and_recover` is to nudge it. They
share nothing but the pid file: to the watchdog an auxiliary target without one
was stopped by the operator. Each command on the file or on a process is a step,
so that crashes, recovery calls and supervision rounds interleave freely.

No process number is given out twice.
-/

namespace SpineFormal.Runtime.Watchdog

set_option autoImplicit false

inductive TargetKind where
  | aux
  | manager
  deriving DecidableEq

inductive RecoveryAction where
  | noop
  | restarted
  | circuitOpen
  | k8sOwned
  | killedZombie
  deriving DecidableEq

structure LivenessProbe where
  pid : Option Nat
  pidAlive : Bool
  heartbeatStale : Bool
  deriving DecidableEq

def LivenessProbe.isHealthy (p : LivenessProbe) : Bool :=
  match p.pid with
  | none => true
  | some _ => p.pidAlive && !p.heartbeatStale

/-- An `AutoRecoveryManager`, with the probe of a call that has not acted on it yet. -/
structure AutoRecoveryManager where
  isK8sOwned : Bool := false
  heartbeatTimeoutS : Nat := 300
  maxRestarts : Nat := 5
  windowS : Nat := 600
  restartLog : List Nat := []
  probed : Option LivenessProbe := none
  lastAction : Option RecoveryAction := none
  deriving DecidableEq

/-- What `check_and_recover` does about an unhealthy target before it records a restart. -/
inductive Nudge where
  | unlink
  | sigterm (pid : Nat)
  | nothing
  deriving DecidableEq

namespace AutoRecoveryManager

/-- The log without the restarts from before the window. -/
def prunedLog (m : AutoRecoveryManager) (now : Nat) : List Nat :=
  m.restartLog.filter fun t => decide (now ≤ t + m.windowS)

def breakerOpen (m : AutoRecoveryManager) (now : Nat) : Bool :=
  decide (m.maxRestarts ≤ (m.prunedLog now).length)

def nudge (p : LivenessProbe) : Nudge :=
  match p.pid with
  | none => .nothing
  | some pid =>
    if pid ≠ 0 ∧ p.pidAlive = false then .unlink
    else if pid ≠ 0 ∧ p.pidAlive = true ∧ p.heartbeatStale = true then .sigterm pid
    else .nothing

/-- `check_and_recover` on its probe: the log it leaves, and the action it returns at once or the
nudge it gives. -/
def checkAndRecover (m : AutoRecoveryManager) (now : Nat) (p : LivenessProbe) :
    List Nat × (RecoveryAction ⊕ Nudge) :=
  if m.isK8sOwned then (m.restartLog, .inl .k8sOwned)
  else if p.pid = none then (m.restartLog, .inl .noop)
  else if p.isHealthy then (m.restartLog, .inl .noop)
  else if m.breakerOpen now then (m.prunedLog now, .inl .circuitOpen)
  else (m.prunedLog now ++ [now], .inr (nudge p))

end AutoRecoveryManager

/-- What comes of a nudge: an error, or what a `SIGTERM` does to the process, which may clear its
pid file on the way out. -/
inductive Outcome where
  | failed
  | ignored
  | died
  | exited
  deriving DecidableEq

/-- Where the watchdog's round over the target stands. -/
inductive Stage where
  | asleep
  /-- `supervise_aux` found the pid dead. -/
  | removing
  | launching
  | writing (pid : Nat)
  /-- `manager_pid_for` found the pid dead. -/
  | cleaning
  | searching
  | beating
  | restarting
  deriving DecidableEq

structure Host where
  kind : TargetKind
  /-- The launcher script is there. -/
  launcher : Bool := true
  clock : Nat := 0
  running : Option Nat
  nextPid : Nat
  pidFile : Option Nat
  stage : Stage := .asleep
  managers : List AutoRecoveryManager
  /-- The target crashed while its pid file existed and has not been launched since. -/
  awaiting : Bool := false
  /-- So it was when the present round looked. -/
  owed : Bool := false
  /-- A round has ended without the launch that it owed. -/
  missed : Bool := false
  deriving DecidableEq

namespace Host

def kill0 (h : Host) (pid : Nat) : Bool := decide (pid = 0 ∨ h.running = some pid)

/-- `probe`; the age is that of a heartbeat file that can be read. -/
def probe (h : Host) (m : AutoRecoveryManager) (age : Option Nat) : LivenessProbe :=
  { pid := h.pidFile
    pidAlive := h.pidFile.any fun pid => decide (pid ≠ 0) && h.kill0 pid
    heartbeatStale := age.any fun a => decide (m.heartbeatTimeoutS < a) }

/-- The process is gone and did not clear its pid file. -/
def crash (h : Host) : Host :=
  if h.running = none then h
  else { h with running := none, awaiting := h.awaiting || h.pidFile.isSome }

def giveNudge (h : Host) (o : Outcome) : Nudge → Host × Bool
  | .unlink => if o = .failed then (h, false) else ({ h with pidFile := none }, true)
  | .sigterm pid =>
    if h.running ≠ some pid then (h, false)
    else
      match o with
      | .failed => (h, false)
      | .ignored => (h, true)
      | .died => (h.crash, true)
      | .exited => ({ h with running := none, pidFile := none }, true)
  | .nothing => (h, false)

def report (h : Host) (i : Nat) (m : AutoRecoveryManager) (log : List Nat)
    (action : RecoveryAction) : Host :=
  { h with managers :=
      h.managers.set i { m with restartLog := log, probed := none, lastAction := some action } }

/-- The rest of a `check_and_recover` call after its probe. -/
def act (h : Host) (i : Nat) (m : AutoRecoveryManager) (p : LivenessProbe) (o : Outcome) : Host :=
  match m.checkAndRecover h.clock p with
  | (log, .inl action) => h.report i m log action
  | (log, .inr n) =>
    (h.giveNudge o n).1.report i m log
      (if (h.giveNudge o n).2 then .killedZombie else .restarted)

/-- The round is over until the next poll. -/
def sleep (h : Host) : Host :=
  { h with stage := .asleep, owed := false, missed := h.missed || h.owed }

def launch (h : Host) (stage : Stage) : Host :=
  { h with running := some h.nextPid, nextPid := h.nextPid + 1, stage := stage,
           awaiting := false, owed := false }

/-- The watchdog's next command; the age is that of the manager's heartbeat file, if it is there. -/
def watch (h : Host) (timeoutS : Nat) (age : Option Nat) : Host :=
  match h.stage with
  | .asleep =>
    let h := { h with owed := h.awaiting }
    match h.kind, h.pidFile with
    | .aux, none => h.sleep
    | .aux, some pid =>
      if h.kill0 pid then h.sleep
      else if h.launcher then { h with stage := .removing }
      else h.sleep
    | .manager, none => { h with stage := .searching }
    | .manager, some pid =>
      if h.kill0 pid then { h with stage := .beating } else { h with stage := .cleaning }
  | .removing => { h with pidFile := none, stage := .launching }
  | .launching =>
    match h.kind with
    | .aux => h.launch (.writing h.nextPid)
    | .manager => (h.launch .asleep).sleep
  | .writing pid => ({ h with pidFile := some pid } : Host).sleep
  | .cleaning => { h with pidFile := none, stage := .searching }
  | .searching =>
    if h.running = none then { h with stage := .restarting } else { h with stage := .beating }
  | .beating =>
    if age.any (fun a => decide (timeoutS < a)) then { h with stage := .restarting } else h.sleep
  -- `manager_pid_for` once more, and the process that it finds is killed.
  | .restarting =>
    { h with pidFile := h.pidFile.filter h.kill0, running := none, stage := .launching }

end Host

inductive HostEvent where
  | tick (seconds : Nat)
  | crash
  /-- A launched process writes its own pid. -/
  | checkIn
  | probe (i : Nat) (age : Option Nat)
  | act (i : Nat) (outcome : Outcome)
  | watch (timeoutS : Nat) (age : Option Nat)

def Host.step (h : Host) : HostEvent → Option Host
  | .tick seconds => some { h with clock := h.clock + seconds }
  | .crash => some h.crash
  | .checkIn => h.running.map fun pid => { h with pidFile := some pid }
  | .probe i age => h.managers[i]?.map fun m =>
      { h with managers := h.managers.set i { m with probed := some (h.probe m age) } }
  | .act i o => h.managers[i]?.bind fun m => m.probed.map fun p => h.act i m p o
  | .watch timeoutS age => some (h.watch timeoutS age)

/-- A target that the operator started, or stopped. -/
def Host.start (kind : TargetKind) (launcher : Bool) (running : Option Nat)
    (managers : List AutoRecoveryManager) : Host :=
  { kind := kind, launcher := launcher, running := running, nextPid := running.getD 0 + 1,
    pidFile := running, managers := managers }

/-! ## Crashed targets are launched again -/

/-- A crashed target is not left as one that the operator stopped, and no round passed it over. -/
def Host.Recovering (h : Host) : Prop :=
  h.missed = false ∧
    (h.kind = .aux → h.awaiting = true → h.stage = .asleep → h.pidFile ≠ none)

/-- No recovery call unlinks the pid file of an auxiliary target that is down while the watchdog
sleeps, and the launcher of one that is down is there. -/
def Undisturbed (h : Host) : HostEvent → Prop
  | .act i o => h.kind = .aux → ∀ m ∈ h.managers[i]?, ∀ p ∈ m.probed,
      (m.checkAndRecover h.clock p).2 = .inr .unlink → o ≠ .failed →
        h.pidFile = none ∨ h.running ≠ none ∨ h.stage ≠ .asleep
  | .watch _ _ => h.kind = .aux → h.stage = .asleep → h.running = none → h.pidFile ≠ none →
      h.launcher = true
  | _ => True

instance (h : Host) (e : HostEvent) : Decidable (Undisturbed h e) := by
  cases e <;> unfold Undisturbed <;> infer_instance

/-- What the stage of a round says about process and pid file. -/
def Host.AtStage (h : Host) : Prop :=
  match h.kind, h.stage with
  | .aux, .removing => h.running = none
  | .aux, .launching => h.running = none ∧ h.pidFile = none
  | .aux, .writing pid => h.owed = false ∧ pid ≠ 0 ∧ (∀ q, h.running = some q → q = pid) ∧
      ∀ q, h.pidFile = some q → q = pid
  | .aux, .asleep => h.owed = false ∧ (h.awaiting = true → h.pidFile ≠ none)
  | .aux, _ => False
  | .manager, .asleep | .manager, .beating => h.owed = false
  | .manager, .removing | .manager, .writing _ => False
  | .manager, _ => True

/-- The invariant of the host. -/
structure Host.Sound (h : Host) : Prop where
  down : h.awaiting = true → h.running = none
  numbered : 0 < h.nextPid ∧ (∀ p, h.running = some p → p ≠ 0) ∧ ∀ p, h.pidFile = some p → p ≠ 0
  named : h.kind = .aux → ∀ p q, h.running = some p → h.pidFile = some q → p = q
  owes : h.owed = true → h.awaiting = true
  stage : h.AtStage
  kept : h.missed = false

namespace Host.Sound
variable {h : Host}

theorem recovering (hs : h.Sound) : h.Recovering := by
  refine ⟨hs.kept, fun hkind hawaiting hstage => ?_⟩
  have hat := hs.stage
  rw [Host.AtStage, hkind, hstage] at hat
  exact hat.2 hawaiting

theorem not_awaiting (hs : h.Sound) {pid : Nat} (hrun : h.running = some pid) :
    h.awaiting = false := by
  by_contra hne
  rw [hs.down (by simpa using hne)] at hrun
  cases hrun

/-- The probes, the logs and the clock play no part. -/
theorem frame (hs : h.Sound) (clock : Nat) (managers : List AutoRecoveryManager) :
    Host.Sound { h with clock := clock, managers := managers } :=
  ⟨hs.down, hs.numbered, hs.named, hs.owes, hs.stage, hs.kept⟩

theorem crash (hs : h.Sound) : h.crash.Sound := by
  unfold Host.crash
  split_ifs with hrun
  · exact hs
  · refine ⟨fun _ => rfl, ⟨hs.numbered.1, by simp, hs.numbered.2.2⟩, by simp, ?_, ?_, hs.kept⟩
    · intro howed
      simp [hs.owes howed]
    · have hat := hs.stage
      unfold Host.AtStage at hat ⊢
      split at hat <;> simp_all [Option.isSome_iff_ne_none]
      rintro (hawaiting | hfile)
      · exact hat.2 hawaiting
      · exact hfile

theorem checkIn (hs : h.Sound) {pid : Nat} (hrun : h.running = some pid) :
    Host.Sound { h with pidFile := some pid } := by
  have hpid : pid ≠ 0 := hs.numbered.2.1 pid hrun
  refine ⟨hs.down, ⟨hs.numbered.1, hs.numbered.2.1, ?_⟩, ?_, hs.owes, ?_, hs.kept⟩
  · rintro q ⟨⟩
    exact hpid
  · rintro - p q hp ⟨⟩
    exact Option.some.inj (hp.symm.trans hrun)
  · have hat := hs.stage
    unfold Host.AtStage at hat ⊢
    dsimp only
    split at hat <;> simp_all

/-- A pid file may go unless an auxiliary target that waits for its launch needs it. -/
theorem unlink (hs : h.Sound) (hfree : h.kind = .aux → h.pidFile = none ∨ h.running ≠ none ∨
    h.stage ≠ .asleep) : Host.Sound { h with pidFile := none } := by
  refine ⟨hs.down, ⟨hs.numbered.1, hs.numbered.2.1, by simp⟩, by simp, hs.owes, ?_, hs.kept⟩
  have hat := hs.stage
  have hdown := hs.down
  unfold Host.AtStage at hat ⊢
  split at hat <;> simp_all
  grind

theorem giveNudge (hs : h.Sound) {o : Outcome} {n : Nudge}
    (hfree : n = .unlink → o ≠ .failed → h.kind = .aux →
      h.pidFile = none ∨ h.running ≠ none ∨ h.stage ≠ .asleep) : (h.giveNudge o n).1.Sound := by
  cases n with
  | nothing => exact hs
  | unlink =>
    simp only [Host.giveNudge]
    split_ifs with ho
    · exact hs
    · exact hs.unlink (hfree rfl ho)
  | sigterm pid =>
    simp only [Host.giveNudge]
    split_ifs with hrun
    · exact hs
    · obtain hrun : h.running = some pid := not_not.mp hrun
      cases o with
      | failed => exact hs
      | ignored => exact hs
      | died => exact hs.crash
      | exited =>
        -- It cleared its pid file itself, and that was no crash.
        have hcalm := hs.not_awaiting hrun
        refine ⟨fun _ => rfl, ⟨hs.numbered.1, by simp, by simp⟩, by simp, hs.owes, ?_, hs.kept⟩
        have hat := hs.stage
        unfold Host.AtStage at hat ⊢
        dsimp only
        split at hat <;> simp_all

theorem sleep (hs : h.Sound) {owed : Bool} (howed : owed = false)
    (hfile : h.kind = .aux → h.awaiting = true → h.pidFile ≠ none) :
    (Host.sleep { h with owed := owed }).Sound := by
  refine ⟨hs.down, hs.numbered, hs.named, by simp [Host.sleep], ?_, ?_⟩
  · unfold Host.AtStage Host.sleep
    cases hkind : h.kind with
    | aux => exact ⟨rfl, hfile hkind⟩
    | manager => rfl
  · simp [Host.sleep, hs.kept, howed]

theorem awaiting_eq_false_of_kill0 (hs : h.Sound) {pid : Nat} (hfile : h.pidFile = some pid)
    (halive : h.kill0 pid = true) : h.awaiting = false := by
  rcases of_decide_eq_true halive with rfl | hrun
  · exact absurd rfl (hs.numbered.2.2 0 hfile)
  · exact hs.not_awaiting hrun

theorem running_eq_none_of_kill0 (hs : h.Sound) (hkind : h.kind = .aux) {pid : Nat}
    (hfile : h.pidFile = some pid) (hdead : ¬ h.kill0 pid = true) : h.running = none := by
  by_contra hne
  obtain ⟨p, hrun⟩ := Option.ne_none_iff_exists'.mp hne
  obtain rfl := hs.named hkind p pid hrun hfile
  exact hdead (decide_eq_true (.inr hrun))

theorem launch (hs : h.Sound) {stage : Stage} (hfile : h.kind = .aux → h.pidFile = none)
    (hat : (h.launch stage).AtStage) : (h.launch stage).Sound := by
  refine ⟨by simp [Host.launch], ⟨Nat.succ_pos _, ?_, hs.numbered.2.2⟩, ?_,
    by simp [Host.launch], hat, hs.kept⟩
  · rintro p ⟨⟩
    exact Nat.pos_iff_ne_zero.mp hs.numbered.1
  · intro hkind p q _ hq
    cases (hfile hkind).symm.trans hq

theorem watch_aux (hs : h.Sound) (hkind : h.kind = .aux) (timeoutS : Nat) (age : Option Nat)
    (hlauncher : h.stage = .asleep → h.running = none → h.pidFile ≠ none → h.launcher = true) :
    (h.watch timeoutS age).Sound := by
  obtain ⟨kind, launcher, clock, running, nextPid, pidFile, stage, managers, awaiting, owed,
    missed⟩ := h
  obtain rfl : kind = .aux := hkind
  have hat := hs.stage
  cases stage with
  | asleep =>
    cases pidFile with
    | none =>
      have hcalm : awaiting = false := by
        cases awaiting with
        | false => rfl
        | true => exact absurd rfl (hat.2 rfl)
      exact hs.sleep hcalm fun _ hawaiting => by simp [hcalm] at hawaiting
    | some pid =>
      simp only [Host.watch]
      split_ifs with halive hthere
      · exact hs.sleep (hs.awaiting_eq_false_of_kill0 rfl halive) (by simp)
      · have hdown := hs.running_eq_none_of_kill0 rfl rfl halive
        exact ⟨hs.down, hs.numbered, hs.named, id, hdown, hs.kept⟩
      · have hdown := hs.running_eq_none_of_kill0 rfl rfl halive
        exact absurd (hlauncher rfl hdown (by simp)) hthere
  | removing =>
    exact ⟨hs.down, ⟨hs.numbered.1, hs.numbered.2.1, by simp [Host.watch]⟩, by simp [Host.watch],
      hs.owes, ⟨hat, rfl⟩, hs.kept⟩
  | launching =>
    have hpid : nextPid ≠ 0 := Nat.pos_iff_ne_zero.mp hs.numbered.1
    refine hs.launch (fun _ => hat.2)
      ⟨rfl, hpid, fun q hq => (Option.some.inj hq).symm, fun q hq => ?_⟩
    cases hat.2.symm.trans hq
  | writing pid =>
    obtain ⟨howed, hpid, hrun, -⟩ := hat
    have hwritten : Host.Sound ⟨.aux, launcher, clock, running, nextPid, some pid, .writing pid,
        managers, awaiting, owed, missed⟩ := by
      refine ⟨hs.down, ⟨hs.numbered.1, hs.numbered.2.1, ?_⟩, ?_, hs.owes, ?_, hs.kept⟩
      · rintro q ⟨⟩
        exact hpid
      · rintro - p q hp ⟨⟩
        exact hrun p hp
      · exact ⟨howed, hpid, hrun, fun q hq => (Option.some.inj hq).symm⟩
    exact hwritten.sleep howed (by simp)
  -- The other stages belong to a manager's round.
  | cleaning => exact hat.elim
  | searching => exact hat.elim
  | beating => exact hat.elim
  | restarting => exact hat.elim

theorem watch_manager (hs : h.Sound) (hkind : h.kind = .manager) (timeoutS : Nat)
    (age : Option Nat) : (h.watch timeoutS age).Sound := by
  obtain ⟨kind, launcher, clock, running, nextPid, pidFile, stage, managers, awaiting, owed,
    missed⟩ := h
  obtain rfl : kind = .manager := hkind
  have hat := hs.stage
  have hmanager : ∀ {p : Prop}, TargetKind.manager = .aux → p := by simp
  cases stage with
  | asleep =>
    cases pidFile with
    | none => exact ⟨hs.down, hs.numbered, hmanager, id, trivial, hs.kept⟩
    | some pid =>
      simp only [Host.watch]
      split_ifs with halive
      · have hcalm := hs.awaiting_eq_false_of_kill0 rfl halive
        exact ⟨hs.down, hs.numbered, hmanager, id, hcalm, hs.kept⟩
      · exact ⟨hs.down, hs.numbered, hmanager, id, trivial, hs.kept⟩
  | cleaning =>
    exact ⟨hs.down, ⟨hs.numbered.1, hs.numbered.2.1, by simp [Host.watch]⟩, hmanager, hs.owes,
      trivial, hs.kept⟩
  | searching =>
    simp only [Host.watch]
    split_ifs with hrun
    · exact ⟨hs.down, hs.numbered, hmanager, hs.owes, trivial, hs.kept⟩
    · obtain ⟨pid, hrun⟩ := Option.ne_none_iff_exists'.mp hrun
      have hcalm := hs.not_awaiting hrun
      have howed : owed = false := by
        cases owed with
        | false => rfl
        | true => exact (hcalm.symm.trans (hs.owes rfl)).symm
      exact ⟨hs.down, hs.numbered, hmanager, hs.owes, howed, hs.kept⟩
  | beating =>
    simp only [Host.watch]
    split_ifs with hstale
    · exact ⟨hs.down, hs.numbered, hmanager, hs.owes, trivial, hs.kept⟩
    · exact hs.sleep hat hmanager
  | restarting =>
    refine ⟨fun _ => rfl, ⟨hs.numbered.1, by simp [Host.watch], ?_⟩, hmanager, hs.owes, trivial,
      hs.kept⟩
    intro p hp
    exact hs.numbered.2.2 p (Option.filter_eq_some_iff.mp hp).1
  | launching =>
    have hup := @launch _ hs .asleep hmanager rfl
    exact hup.sleep rfl hmanager
  -- The other stages belong to an auxiliary target's round.
  | removing => exact hat.elim
  | writing pid => exact hat.elim

theorem act (hs : h.Sound) {i : Nat} {m : AutoRecoveryManager} {p : LivenessProbe} {o : Outcome}
    (hfree : (m.checkAndRecover h.clock p).2 = .inr .unlink → o ≠ .failed → h.kind = .aux →
      h.pidFile = none ∨ h.running ≠ none ∨ h.stage ≠ .asleep) : (h.act i m p o).Sound := by
  unfold Host.act
  rcases hplan : m.checkAndRecover h.clock p with ⟨log, action | n⟩
  · exact hs.frame _ _
  · have hnudged : (h.giveNudge o n).1.Sound := by
      apply hs.giveNudge
      rintro rfl
      exact hfree (by rw [hplan])
    exact hnudged.frame _ _

theorem step {g : Host} {e : HostEvent} (hs : h.Sound) (hcalm : Undisturbed h e)
    (hstep : h.step e = some g) : g.Sound := by
  cases e with
  | tick seconds =>
    obtain rfl := Option.some.inj hstep
    exact hs.frame _ _
  | crash =>
    obtain rfl := Option.some.inj hstep
    exact hs.crash
  | checkIn =>
    obtain ⟨pid, hrun, rfl⟩ := Option.map_eq_some_iff.mp hstep
    exact hs.checkIn hrun
  | probe i age =>
    obtain ⟨m, -, rfl⟩ := Option.map_eq_some_iff.mp hstep
    exact hs.frame _ _
  | act i o =>
    obtain ⟨m, hm, hp⟩ := Option.bind_eq_some_iff.mp hstep
    obtain ⟨p, hprobed, rfl⟩ := Option.map_eq_some_iff.mp hp
    exact hs.act fun hplan ho hkind => hcalm hkind m hm p hprobed hplan ho
  | watch timeoutS age =>
    obtain rfl := Option.some.inj hstep
    cases hkind : h.kind with
    | aux => exact hs.watch_aux hkind timeoutS age (hcalm hkind)
    | manager => exact hs.watch_manager hkind timeoutS age

end Host.Sound

theorem Host.start_sound (kind : TargetKind) (launcher : Bool) {running : Option Nat}
    (hpid : running ≠ some 0) (managers : List AutoRecoveryManager) :
    (Host.start kind launcher running managers).Sound := by
  have hne : ∀ p, running = some p → p ≠ 0 := by
    rintro p hp rfl
    exact hpid hp
  refine ⟨by simp [Host.start], ⟨Nat.succ_pos _, hne, hne⟩, ?_, by simp [Host.start], ?_, rfl⟩
  · intro _ p q hp hq
    exact Option.some.inj (hp.symm.trans hq)
  · cases kind with
    | aux => exact ⟨rfl, by simp [Host.start]⟩
    | manager => rfl

/-- However crashes, recovery calls and rounds interleave, a target that crashed with its pid file
there is launched by every round that starts before it is up again. -/
theorem supervision_recovers {kind : TargetKind} {launcher : Bool} {running : Option Nat}
    (hpid : running ≠ some 0) {managers : List AutoRecoveryManager} {es : List HostEvent} {h : Host}
    (hrun : Run (fun h e g => Undisturbed h e ∧ h.step e = some g)
      (Host.start kind launcher running managers) es h) : h.Recovering := by
  have hs : h.Sound := by
    refine hrun.invariant (I := fun _ h => h.Sound)
      (Host.start_sound kind launcher hpid managers) ?_
    intro es h g e hs hstep
    exact hs.step hstep.1 hstep.2
  exact hs.recovering

/-- A round of the watchdog, as long as it gets if it relaunches. -/
def fullRound : List HostEvent :=
  [.watch 300 none, .watch 300 none, .watch 300 none, .watch 300 none]

/-- The heartbeat target crashes and the watchdog launches it anew. -/
theorem supervision_recovers_relaunch : ∃ h : Host, h.running = some 8 ∧ h.Recovering := by
  have hex : (((HostEvent.crash :: fullRound).foldlM
      (fun h e => if Undisturbed h e then h.step e else none)
      (Host.start .aux true (some 7) [{}])).map Host.running) = some (some 8) := by
    decide
  obtain ⟨h, hh, hup⟩ := Option.map_eq_some_iff.mp hex
  exact ⟨h, hup, supervision_recovers (by decide) (Run.of_guarded_foldlM hh)⟩

/-- The recovery call that is to nudge the watchdog takes the crashed target's pid file away, and
the next round passes the target over. -/
theorem recovery_stops_relaunch :
    ¬ ∀ (kind : TargetKind) (running : Option Nat) (managers : List AutoRecoveryManager)
        (es : List HostEvent) (h : Host), running ≠ some 0 →
      Run (fun h e g => h.step e = some g) (Host.start kind true running managers) es h →
        (∀ m ∈ h.managers, m.breakerOpen h.clock = false) → h.Recovering := by
  intro hall
  have hex : (([.crash, .probe 0 none, .act 0 .ignored, .watch 300 none].foldlM Host.step
      (Host.start .aux true (some 7) [{}])).map fun h =>
        decide ((∀ m ∈ h.managers, m.breakerOpen h.clock = false) ∧ h.missed = true)) =
          some true := by
    decide
  obtain ⟨h, hh, hend⟩ := Option.map_eq_some_iff.mp hex
  obtain ⟨hclosed, hmissed⟩ := of_decide_eq_true hend
  have hkept := (hall .aux (some 7) [{}] _ h (by decide) (Run.of_foldlM id hh) hclosed).1
  exact absurd (hkept.symm.trans hmissed) (by decide)

end SpineFormal.Runtime.Watchdog
