import SpineFormal.Base.Run
import SpineFormal.Base.Numerals
import Mathlib.Data.List.Basic

/-!
# The file lock of the engineer workers

`file-lock.sh` keeps a lock as a symlink that names its holder. The workers run
it concurrently; every command that touches the link or asks the kernel about a
process is a step of its own. Which worker made a link is not on the disk, and
is carried along here to say who may rely on it.
-/

namespace SpineFormal.Runtime.FileLock

set_option autoImplicit false

/-- What a worker brings to a call: the holder id, its host, process and user, and `LOCK_PID`. -/
structure Caller where
  holder : List Char
  host : List Char
  pid : Nat
  uid : Nat := 0
  lockPid : List Char := []
  deriving DecidableEq

def cleanHolder (holder : List Char) : List Char :=
  holder.map fun ch => if ch = ':' then '_' else ch

/-- `SELF_PID`: `LOCK_PID` unless it is empty, else the shell that called the script. -/
def Caller.selfPid (c : Caller) : List Char :=
  if c.lockPid = [] then Nat.toDigits 10 c.pid else c.lockPid

def Caller.encodeTarget (c : Caller) : List Char :=
  cleanHolder c.holder ++ ':' :: (c.selfPid ++ ':' :: c.host)

structure ParsedTarget where
  holder : List Char
  pid : List Char
  host : List Char
  deriving DecidableEq

/-- `holder:pid:host`; anything else is a legacy target. -/
def parseTarget (target : List Char) : Option ParsedTarget :=
  match target.splitOn ':' with
  | [holder, pid, host] =>
    if holder ≠ [] ∧ pid ≠ [] ∧ pid.all Char.isDigit ∧ host ≠ [] then some ⟨holder, pid, host⟩
    else none
  | _ => none

/-- `PARSED_HOLDER`; a legacy target is its own holder. -/
def parsedHolder (target : List Char) : List Char :=
  ((parseTarget target).map ParsedTarget.holder).getD target

/-- What a call writes is read back, the holder with its colons replaced. -/
theorem parseTarget_encodeTarget {c : Caller} (hholder : c.holder ≠ [])
    (hpid : c.lockPid.all Char.isDigit) (hhost : c.host ≠ []) (hcolon : ':' ∉ c.host) :
    parseTarget c.encodeTarget = some ⟨cleanHolder c.holder, c.selfPid, c.host⟩ := by
  have hclean : ':' ∉ cleanHolder c.holder := by
    intro h
    obtain ⟨ch, -, heq⟩ := List.mem_map.mp h
    split_ifs at heq with hch
    · exact absurd heq (by decide)
    · exact hch heq
  have hdigits : c.selfPid.all Char.isDigit = true := by
    unfold Caller.selfPid
    split_ifs
    · exact List.all_eq_true.mpr Numerals.isDigit_of_mem_toDigits
    · exact hpid
  have hself : ':' ∉ c.selfPid := fun h => absurd (List.all_eq_true.mp hdigits _ h) (by decide)
  have hne : c.selfPid ≠ [] := by
    unfold Caller.selfPid
    split_ifs with h
    · exact Nat.toDigits_ne_nil
    · exact h
  have hsplit : c.encodeTarget.splitOn ':' = [cleanHolder c.holder, c.selfPid, c.host] := by
    rw [Caller.encodeTarget, List.splitOn_append_cons_self_of_not_mem hclean,
      List.splitOn_append_cons_self_of_not_mem hself, List.splitOn_eq_singleton hcolon]
  have hne' : cleanHolder c.holder ≠ [] := by simpa [cleanHolder] using hholder
  rw [parseTarget, hsplit]
  exact if_pos ⟨hne', hne, hdigits, hhost⟩

/-- The number that `kill` reads from a row of digits. -/
def pidNumber (digits : List Char) : Nat := digits.foldl (fun n ch => 10 * n + (ch.toNat - 48)) 0

/-- Where a worker's call of the script stands. -/
inductive Stage where
  | idle
  | creating
  | reading
  | testing (pid : List Char)
  | removing
  | waiting
  | checking
  | identifying
  | unlinking
  deriving DecidableEq

structure Worker where
  caller : Caller
  alive : Bool := true
  /-- An `acquire` has returned and no `release` since. -/
  holds : Bool := false
  stage : Stage := .idle
  deriving DecidableEq

structure Link where
  target : List Char
  /-- The worker that made the link; nothing for one that was there before. -/
  creator : Option Nat
  deriving DecidableEq

structure LockState where
  link : Option Link
  workers : List Worker
  deriving DecidableEq

/-- What the world answers a step: whether the timeout has passed, and whether a process that does
not use the lock runs under the tested number. -/
structure World where
  timedOut : Bool := false
  stranger : Bool := false

/-- `kill -0` reaches process group zero, a stranger, or a worker on this host that the caller may
signal. -/
def LockState.kill0 (s : LockState) (c : Caller) (pid : List Char) (o : World) : Bool :=
  decide (pidNumber pid = 0) || o.stranger || s.workers.any fun w =>
    w.alive && decide (w.caller.host = c.host ∧ w.caller.pid = pidNumber pid ∧
      (c.uid = 0 ∨ c.uid = w.caller.uid))

/-- The next command of the `i`-th worker's call. -/
def runCommand (s : LockState) (i : Nat) (w : Worker) (o : World) : Option Link × Worker :=
  match w.stage with
  | .idle => (s.link, w)
  | .creating =>
    match s.link with
    | none => (some ⟨w.caller.encodeTarget, some i⟩, { w with holds := true, stage := .idle })
    | some _ => (s.link, { w with stage := .reading })
  | .reading =>
    match s.link.bind fun l => parseTarget l.target with
    | none => (s.link, { w with stage := .waiting })
    | some t =>
      if t.host = w.caller.host then (s.link, { w with stage := .testing t.pid })
      else (s.link, { w with stage := .waiting })
  | .testing pid =>
    if s.kill0 w.caller pid o then (s.link, { w with stage := .waiting })
    else (s.link, { w with stage := .removing })
  -- `rm -f` goes by the path alone.
  | .removing => (none, { w with stage := .creating })
  | .waiting =>
    if o.timedOut then (s.link, { w with stage := .idle })
    else (s.link, { w with stage := .creating })
  | .checking =>
    match s.link with
    | none => (s.link, { w with holds := false, stage := .idle })
    | some _ => (s.link, { w with stage := .identifying })
  | .identifying =>
    if (s.link.map fun l => parsedHolder l.target).getD [] = cleanHolder w.caller.holder then
      (s.link, { w with stage := .unlinking })
    else (s.link, { w with holds := false, stage := .idle })
  | .unlinking => (none, { w with holds := false, stage := .idle })

inductive LockEvent where
  | spawn (caller : Caller)
  | acquire (i : Nat)
  | release (i : Nat)
  | command (i : Nat) (answer : World)
  | crash (i : Nat)

/-- A call of the script needs a holder id, and a worker that is alive and not in a call. -/
def Worker.call (w : Worker) (stage : Stage) : Option Worker :=
  if w.alive = true ∧ w.stage = .idle ∧ w.caller.holder ≠ [] then some { w with stage := stage }
  else none

def LockState.replace (s : LockState) (i : Nat) (link : Option Link) (w : Worker) : LockState :=
  ⟨link, s.workers.set i w⟩

/-- A worker that crashes leaves its script to run on. -/
def LockState.step (s : LockState) : LockEvent → Option LockState
  | .spawn c =>
    if s.workers.any (fun w =>
        w.alive && decide (w.caller.host = c.host ∧ w.caller.pid = c.pid)) then none
    else some ⟨s.link, s.workers ++ [{ caller := c }]⟩
  | .acquire i => s.workers[i]?.bind fun w => (w.call .creating).map (s.replace i s.link)
  | .release i => s.workers[i]?.bind fun w => (w.call .checking).map (s.replace i s.link)
  | .command i o => s.workers[i]?.map fun w =>
      s.replace i (runCommand s i w o).1 (runCommand s i w o).2
  | .crash i => s.workers[i]?.map fun w => s.replace i s.link { w with alive := false }

/-! ## Mutual exclusion -/

/-- The worker is alive and believes that it holds the lock. -/
def LockState.Holder (s : LockState) (i : Nat) : Prop :=
  ∃ w, s.workers[i]? = some w ∧ w.alive = true ∧ w.holds = true

def LockState.Exclusive (s : LockState) : Prop := ∀ i j, s.Holder i → s.Holder j → i = j

/-- Every live holder made the link that is there. -/
def LockState.Backed (s : LockState) : Prop :=
  ∀ i, s.Holder i → s.link.bind Link.creator = some i

instance (s : LockState) (i : Nat) : Decidable (s.Holder i) :=
  decidable_of_iff (∃ w ∈ s.workers[i]?, w.alive = true ∧ w.holds = true)
    (by simp [LockState.Holder])

/-- A reaper does not remove the link of a live holder, and a release not the link of another. -/
def Sparing (s : LockState) : LockEvent → Prop
  | .command i _ => ∀ w ∈ s.workers[i]?, ∀ l ∈ s.link, ∀ j ∈ l.creator, s.Holder j →
      w.stage ≠ .removing ∧ (w.stage = .unlinking → j = i)
  | _ => True

instance (s : LockState) (e : LockEvent) : Decidable (Sparing s e) := by
  cases e <;> unfold Sparing <;> infer_instance

theorem LockState.Backed.exclusive {s : LockState} (h : s.Backed) : s.Exclusive := by
  intro i j hi hj
  have heq : some i = some j := (h i hi).symm.trans (h j hj)
  exact Option.some.inj heq

theorem holder_replace {s : LockState} {i j : Nat} {link : Option Link} {w : Worker}
    (h : (s.replace i link w).Holder j) :
    (j = i ∧ w.alive = true ∧ w.holds = true) ∨ (j ≠ i ∧ s.Holder j) := by
  obtain ⟨v, hv, halive, hholds⟩ := h
  by_cases hji : j = i
  · rw [hji] at hv
    obtain ⟨-, rfl⟩ : i < s.workers.length ∧ w = v := by
      simpa [LockState.replace, List.getElem?_set] using hv
    exact .inl ⟨hji, halive, hholds⟩
  · refine .inr ⟨hji, v, ?_, halive, hholds⟩
    rwa [LockState.replace, List.getElem?_set_ne (Ne.symm hji)] at hv

theorem LockState.Backed.replace_of_le {s : LockState} {i : Nat} {w w' : Worker} (h : s.Backed)
    (hw : s.workers[i]? = some w) (halive : w'.alive = true → w.alive = true)
    (hholds : w'.holds = true → w.holds = true) : (s.replace i s.link w').Backed := by
  intro j hj
  rcases holder_replace hj with ⟨rfl, ha, hh⟩ | ⟨-, hj⟩
  · exact h j ⟨w, hw, halive ha, hholds hh⟩
  · exact h j hj

theorem backed_replace_none {s : LockState} {i : Nat} {w' : Worker}
    (hothers : ∀ j, j ≠ i → ¬ s.Holder j) (hself : ¬ (w'.alive = true ∧ w'.holds = true)) :
    (s.replace i none w').Backed := by
  intro j hj
  rcases holder_replace hj with ⟨-, ha, hh⟩ | ⟨hne, hj⟩
  · exact absurd ⟨ha, hh⟩ hself
  · exact absurd hj (hothers j hne)

theorem LockState.Backed.creator {s : LockState} {j : Nat} (h : s.Backed) (hj : s.Holder j) :
    ∃ l, s.link = some l ∧ l.creator = some j :=
  Option.bind_eq_some_iff.mp (h j hj)

theorem LockState.Backed.command {s : LockState} {i : Nat} {w : Worker} {o : World} (h : s.Backed)
    (hw : s.workers[i]? = some w) (hspare : Sparing s (.command i o)) :
    (s.replace i (runCommand s i w o).1 (runCommand s i w o).2).Backed := by
  have hspare' : ∀ j, s.Holder j → w.stage ≠ .removing ∧ (w.stage = .unlinking → j = i) := by
    intro j hj
    obtain ⟨l, hl, hcreator⟩ := h.creator hj
    exact hspare w hw l hl j hcreator hj
  unfold runCommand
  cases hstage : w.stage with
  | idle => exact h.replace_of_le hw id id
  | creating =>
    cases hlink : s.link with
    | some l =>
      simp only [← hlink]
      exact h.replace_of_le hw id id
    | none =>
      intro j hj
      rcases holder_replace hj with ⟨rfl, -, -⟩ | ⟨-, hj⟩
      · rfl
      · -- Nobody holds a lock whose link is not there.
        obtain ⟨l, hl, -⟩ := h.creator hj
        cases hlink.symm.trans hl
  | reading =>
    dsimp only
    split
    · exact h.replace_of_le hw id id
    · split <;> exact h.replace_of_le hw id id
  | testing pid =>
    dsimp only
    split <;> exact h.replace_of_le hw id id
  | removing =>
    have hnone : ∀ j, ¬ s.Holder j := fun j hj => (hspare' j hj).1 hstage
    apply backed_replace_none (fun j _ => hnone j)
    rintro ⟨ha, hh⟩
    exact hnone i ⟨w, hw, ha, hh⟩
  | waiting =>
    dsimp only
    split <;> exact h.replace_of_le hw id id
  | checking =>
    cases hlink : s.link with
    | none =>
      simp only [← hlink]
      exact h.replace_of_le hw id (fun hh => by simp at hh)
    | some l =>
      simp only [← hlink]
      exact h.replace_of_le hw id id
  | identifying =>
    dsimp only
    split
    · exact h.replace_of_le hw id id
    · exact h.replace_of_le hw id (fun hh => by simp at hh)
  | unlinking =>
    apply backed_replace_none
    · intro j hne hj
      exact hne ((hspare' j hj).2 hstage)
    · simp

theorem Worker.call_eq_some {w w' : Worker} {stage : Stage} (h : w.call stage = some w') :
    w' = { w with stage := stage } := by
  unfold Worker.call at h
  split_ifs at h
  exact (Option.some.inj h).symm

theorem LockState.Backed.call {s t : LockState} {i : Nat} {stage : Stage} (h : s.Backed)
    (hstep : (s.workers[i]?.bind fun w => (w.call stage).map (s.replace i s.link)) = some t) :
    t.Backed := by
  obtain ⟨w, hw, hcall⟩ := Option.bind_eq_some_iff.mp hstep
  obtain ⟨w', hw', rfl⟩ := Option.map_eq_some_iff.mp hcall
  obtain rfl := Worker.call_eq_some hw'
  exact h.replace_of_le hw id id

theorem LockState.Backed.step {s t : LockState} {e : LockEvent} (h : s.Backed)
    (hspare : Sparing s e) (hstep : s.step e = some t) : t.Backed := by
  cases e with
  | spawn c =>
    simp only [LockState.step] at hstep
    split at hstep
    · cases hstep
    · obtain rfl := Option.some.inj hstep
      rintro i ⟨w, hw, ha, hh⟩
      rw [List.getElem?_append] at hw
      split at hw
      · exact h i ⟨w, hw, ha, hh⟩
      · -- A new worker holds nothing yet.
        obtain ⟨-, rfl⟩ : _ ∧ Worker.mk c true false .idle = w := by
          simpa [List.getElem?_singleton] using hw
        cases hh
  | acquire i => exact h.call hstep
  | release i => exact h.call hstep
  | command i o =>
    obtain ⟨w, hw, rfl⟩ := Option.map_eq_some_iff.mp hstep
    exact h.command hw hspare
  | crash i =>
    obtain ⟨w, hw, rfl⟩ := Option.map_eq_some_iff.mp hstep
    exact h.replace_of_le hw (fun ha => by simp at ha) id

/-- The disk before any worker runs: at most a link that some earlier run left behind. -/
def LockState.start (leftover : Option (List Char)) : LockState :=
  ⟨leftover.map fun target => ⟨target, none⟩, []⟩

/-- No two live workers believe that they hold the lock, as long as no `rm` removes the link of a
live holder other than the one that releases it. -/
theorem file_lock_exclusive {leftover : Option (List Char)} {es : List LockEvent} {s : LockState}
    (h : Run (fun s e t => Sparing s e ∧ s.step e = some t) (LockState.start leftover) es s) :
    s.Exclusive := by
  have hbacked : s.Backed := by
    refine h.invariant (I := fun _ s => s.Backed) ?_ ?_
    · rintro i ⟨w, hw, -⟩
      simp [LockState.start] at hw
    · intro es s t e hs hstep
      exact hs.step hstep.1 hstep.2
  exact hbacked.exclusive

/-- Three workers of one machine. -/
def engineers : List LockEvent :=
  [.spawn ⟨['a'], ['h'], 1, 0, []⟩, .spawn ⟨['b'], ['h'], 2, 0, []⟩,
    .spawn ⟨['c'], ['h'], 3, 0, []⟩]

/-- The first worker takes the lock and crashes. -/
def abandoned : List LockEvent := [.acquire 0, .command 0 {}, .crash 0]

/-- A worker finds the link there, reads it and finds its maker dead. -/
def findsDead (i : Nat) : List LockEvent :=
  [.acquire i, .command i {}, .command i {}, .command i {}]

def reapsAndCreates (i : Nat) : List LockEvent := [.command i {}, .command i {}]

/-- A crashed worker's lock is taken over. -/
theorem file_lock_exclusive_taken_over : ∃ s : LockState, s.Holder 1 ∧ s.Exclusive := by
  have hex : (((engineers ++ abandoned ++ findsDead 1 ++ reapsAndCreates 1).foldlM
      (fun s e => if Sparing s e then s.step e else none) (LockState.start none)).map fun s =>
        decide (s.Holder 1)) = some true := by
    decide +kernel
  obtain ⟨s, hs, hholder⟩ := Option.map_eq_some_iff.mp hex
  exact ⟨s, of_decide_eq_true hholder, file_lock_exclusive (Run.of_guarded_foldlM hs)⟩

/-- Two workers find the same link stale; the later removes the link that the earlier made. -/
theorem file_lock_not_exclusive :
    ¬ ∀ (leftover : Option (List Char)) (es : List LockEvent) (s : LockState),
      Run (fun s e t => s.step e = some t) (LockState.start leftover) es s → s.Exclusive := by
  intro h
  have hex : (((engineers ++ abandoned ++ findsDead 1 ++ findsDead 2 ++ reapsAndCreates 2 ++
      reapsAndCreates 1).foldlM LockState.step (LockState.start none)).map fun s =>
        decide (s.Holder 1 ∧ s.Holder 2)) = some true := by
    decide +kernel
  obtain ⟨s, hs, hholders⟩ := Option.map_eq_some_iff.mp hex
  obtain ⟨h1, h2⟩ := of_decide_eq_true hholders
  exact absurd (h none _ s (Run.of_foldlM id hs) 1 2 h1 h2) (by decide)

end SpineFormal.Runtime.FileLock
