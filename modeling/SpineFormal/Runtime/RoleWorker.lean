import Mathlib.Data.Prod.Lex
import Mathlib.Data.Rat.Floor
import Mathlib.Data.String.Basic
import Mathlib.Tactic.Linarith
import SpineFormal.Base.Run
import SpineFormal.Base.StableSort

/-!
# The role worker

`shared/runtime/role_worker.py` polls the directive workspaces under `.spine/work/`. A tick scans
them once, then claims what it found one by one, calls the tool of the role and writes down how
the call went. Meanwhile others enqueue directives, begin and complete their own, and the worker
may be killed at any point.
-/

namespace SpineFormal.Runtime.Worker

set_option autoImplicit false

/-! ## Workspaces -/

/-- The project and the directive id of a workspace. -/
abbrev Path := String × String

inductive Status where
  | pending
  | running
  | done
  | failed
  deriving DecidableEq

/-- `status.json`, and whether there is a `report.md`. -/
structure Workspace where
  path : Path
  role : String
  directive : String
  actor : String
  status : Status
  queuedAt : Option ℚ
  startedAt : Option ℚ
  finishedAt : Option ℚ
  claimedBy : Option String
  report : Bool

def planRoles : List String :=
  ["product", "planner", "architect", "conductor", "qa", "release_manager"]

def buildRoles : List String :=
  ["engineer", "devops", "devops_release", "auditor", "security_engineer"]

inductive Subsystem where
  | plan
  | build
  deriving DecidableEq

/-- `_SUBSYSTEM_TOOLS`. -/
def Subsystem.tool : Subsystem → String
  | plan => "plan_dispatch"
  | build => "build_dispatch"

def subsystemForRole (role : String) : Option Subsystem :=
  if role ∈ planRoles then some .plan else if role ∈ buildRoles then some .build else none

/-- `_is_stale_running`; `stale` is `_STALE_RUNNING_SECS`. -/
def isStaleRunning (stale now : ℚ) (w : Workspace) : Bool :=
  w.status = .running && !w.report &&
    match w.startedAt <|> w.queuedAt with
    | none => true
    | some started => decide (stale ≤ now - started)

structure QueuedDirective where
  workspace : Path
  role : String
  directive : String
  subsystem : Subsystem
  actor : String

/-- What is found in one workspace. -/
def queued (stale now : ℚ) (w : Workspace) : Option QueuedDirective :=
  if w.status = .pending || isStaleRunning stale now w then
    (subsystemForRole w.role).map fun subsystem =>
      ⟨w.path, w.role, w.directive, subsystem, w.actor⟩
  else none

/-- `scan_file_directives`. -/
def scanFileDirectives (stale now : ℚ) (bus : List Workspace) : List QueuedDirective :=
  (sortBy (fun w => toLex w.path) bus).filterMap (queued stale now)

/-- A workspace is written over. -/
def rewrite (path : Path) (f : Workspace → Workspace) (bus : List Workspace) : List Workspace :=
  bus.map fun w => if w.path = path then f w else w

def claimed (now : ℚ) (w : Workspace) : Workspace :=
  { w with status := .running, startedAt := some now, claimedBy := some "role_worker" }

/-- `_finish_file_directive` and `complete_directive`. -/
def finished (now : ℚ) (ok : Bool) (w : Workspace) : Workspace :=
  { w with
    status := if ok then .done else .failed
    finishedAt := some now
    report := true }

/-- What was begun ends. -/
def ended (now : ℚ) (ok : Bool) (w : Workspace) : Workspace :=
  if w.status = .pending then w else finished now ok w

/-! ## The worker and the others -/

/-- Where the worker stands in its tick; `seen` are the workspaces of the last scan. -/
inductive Phase where
  | idle
  | working (seen : List Path) (queue : List QueuedDirective)
  | calling (item : QueuedDirective) (seen : List Path) (queue : List QueuedDirective)

def Phase.queue : Phase → List QueuedDirective
  | idle => []
  | working _ queue | calling _ _ queue => queue

def Phase.seen : Phase → List Path
  | idle => []
  | working seen _ | calling _ seen _ => seen

def Phase.current : Phase → Option Path
  | calling item _ _ => some item.workspace
  | _ => none

structure Invocation where
  tool : String
  item : QueuedDirective
  time : ℚ

/-- `invoked` are the calls the worker has made, `killed` the workspaces whose call was cut off. -/
structure Host where
  clock : ℚ
  bus : List Workspace
  worker : Phase
  invoked : List Invocation
  killed : List Path

inductive Act where
  | enqueueDirective (path : Path) (role directive actor : String)
  | beginDirective (path : Path) (role directive actor : String)
  | completeDirective (path : Path) (ok : Bool)
  | scan
  /-- The next item of the tick, or its end. -/
  | next
  /-- The call returned; it is not ok when it raised. -/
  | returned (ok : Bool)
  | kill

/-- The next item of the tick. -/
def dispatchNext (h : Host) (seen : List Path) : List QueuedDirective → Host
  | [] => { h with worker := .idle }
  | item :: queue =>
    match h.bus.find? fun w => w.path = item.workspace with
    | some w =>
      if w.status = .pending ∨ w.status = .running then
        { h with
          bus := rewrite item.workspace (claimed h.clock) h.bus
          worker := .calling item seen queue
          invoked := h.invoked ++ [⟨item.subsystem.tool, item, h.clock⟩] }
      else { h with worker := .working seen queue }
    | none => { h with worker := .working seen queue }

/-- Directive ids are new; the owner of a directive completes what was begun. -/
def act (stale : ℚ) (h : Host) : Act → Option Host
  | .enqueueDirective path role directive actor =>
    if path ∈ h.bus.map Workspace.path then none
    else some { h with
      bus := h.bus ++ [⟨path, role, directive, actor, .pending, some h.clock, none, none, none, false⟩] }
  | .beginDirective path role directive actor =>
    if path ∈ h.bus.map Workspace.path then none
    else some { h with
      bus := h.bus ++ [⟨path, role, directive, actor, .running, none, some h.clock, none, none, false⟩] }
  | .completeDirective path ok =>
    some { h with bus := rewrite path (ended h.clock ok) h.bus }
  | .scan =>
    match h.worker with
    | .idle => some { h with
        worker := .working (h.bus.map Workspace.path) (scanFileDirectives stale h.clock h.bus) }
    | _ => none
  | .next =>
    match h.worker with
    | .working seen queue => some (dispatchNext h seen queue)
    | _ => none
  | .returned ok =>
    match h.worker with
    | .calling item seen queue => some { h with
        bus := rewrite item.workspace (finished h.clock ok) h.bus
        worker := .working seen queue }
    | _ => none
  | .kill => some { h with worker := .idle, killed := h.killed ++ h.worker.current.toList }

structure Event where
  now : ℚ
  act : Act

def step (stale : ℚ) (h : Host) (e : Event) : Option Host :=
  if h.clock ≤ e.now then act stale { h with clock := e.now } e.act else none

def Host.new (clock : ℚ) : Host := ⟨clock, [], .idle, [], []⟩

/-! ## What stays true -/

/-- The call is over, one way or the other. -/
def Workspace.closed (w : Workspace) : Prop := w.status = .done ∨ w.status = .failed

/-- The worker has begun a call for the workspace that nobody killed. -/
def Host.settled (h : Host) (path : Path) : Prop :=
  h.worker.current = some path ∨ ∃ w ∈ h.bus, w.path = path ∧ w.closed

structure Orderly (stale : ℚ) (h : Host) : Prop where
  unique : (h.bus.map Workspace.path).Nodup
  /-- A workspace that was called for is not pending, and what it began with is not earlier. -/
  begun : ∀ call ∈ h.invoked, ∃ w ∈ h.bus, w.path = call.item.workspace ∧ w.status ≠ .pending ∧
    (w.status = .running → ∃ started, w.startedAt = some started ∧ call.time ≤ started)
  apart : h.invoked.Pairwise fun a b =>
    a.item.workspace = b.item.workspace → a.time + stale ≤ b.time
  counted : ∀ path, (h.invoked.countP fun call => call.item.workspace = path) ≤
      h.killed.count path ∨
    (h.invoked.countP fun call => call.item.workspace = path) = h.killed.count path + 1 ∧
      h.settled path
  /-- What is in the queue was pending, or stale for long enough. -/
  waited : ∀ item ∈ h.worker.queue, ∀ w ∈ h.bus, w.path = item.workspace → w.status = .running →
    ∀ started, w.startedAt = some started → started + stale ≤ h.clock
  queue_nodup : (h.worker.queue.map QueuedDirective.workspace).Nodup
  queue_known : ∀ item ∈ h.worker.queue, item.workspace ∈ h.bus.map Workspace.path
  current : ∀ path ∈ h.worker.current, path ∉ h.worker.queue.map QueuedDirective.workspace ∧
    ∃ w ∈ h.bus, w.path = path ∧ w.status ≠ .pending
  seen_known : ∀ path ∈ h.worker.seen, path ∈ h.bus.map Workspace.path
  covered : ∀ w ∈ h.bus, w.path ∈ h.worker.seen → w.status = .pending →
    (subsystemForRole w.role).isSome → w.path ∈ h.worker.queue.map QueuedDirective.workspace

variable {stale : ℚ} {h : Host} {path : Path} {f : Workspace → Workspace} {bus : List Workspace}

theorem mem_rewrite {w : Workspace} :
    w ∈ rewrite path f bus ↔ ∃ v ∈ bus, (if v.path = path then f v else v) = w := List.mem_map

theorem paths_rewrite (hf : ∀ w, (f w).path = w.path) :
    (rewrite path f bus).map Workspace.path = bus.map Workspace.path := by
  rw [rewrite, List.map_map]
  apply List.map_congr_left
  intro w _
  rw [Function.comp_apply]
  split
  · exact hf w
  · rfl

theorem path_of_mem_rewrite (hf : ∀ w, (f w).path = w.path) {v : Workspace} :
    (if v.path = path then f v else v).path = v.path := by
  split
  · exact hf v
  · rfl

theorem Orderly.eq_of_path (ho : Orderly stale h) {v w : Workspace} (hv : v ∈ h.bus) (hw : w ∈ h.bus)
    (hpath : v.path = w.path) : v = w := List.inj_on_of_nodup_map ho.unique hv hw hpath

theorem orderly_new (clock : ℚ) : Orderly stale (Host.new clock) where
  unique := List.nodup_nil
  begun := fun _ hc => absurd hc List.not_mem_nil
  apart := List.Pairwise.nil
  counted := fun _ => .inl (Nat.zero_le _)
  waited := fun _ hi => absurd hi List.not_mem_nil
  queue_nodup := List.nodup_nil
  queue_known := fun _ hi => absurd hi List.not_mem_nil
  current := fun _ hp => nomatch hp
  seen_known := fun _ hp => absurd hp List.not_mem_nil
  covered := fun _ hw => absurd hw List.not_mem_nil

theorem orderly_clock (ho : Orderly stale h) {now : ℚ} (hnow : h.clock ≤ now) :
    Orderly stale { h with clock := now } :=
  { ho with
    waited := fun item hitem w hw hpath hrunning started hstarted =>
      (ho.waited item hitem w hw hpath hrunning started hstarted).trans hnow }

/-! ## What the others do -/

/-- A new workspace, pending or begun by its owner. -/
theorem orderly_add (ho : Orderly stale h) {w : Workspace} (hnew : w.path ∉ h.bus.map Workspace.path) :
    Orderly stale { h with bus := h.bus ++ [w] } := by
  have hkeep {v : Workspace} (hv : v ∈ h.bus) : v ∈ h.bus ++ [w] := List.mem_append_left _ hv
  have hpaths {p : Path} (hp : p ∈ h.bus.map Workspace.path) :
      p ∈ (h.bus ++ [w]).map Workspace.path := by
    rw [List.map_append]
    exact List.mem_append_left _ hp
  refine ⟨?_, ?_, ho.apart, ?_, ?_, ho.queue_nodup, fun item hitem => hpaths (ho.queue_known item hitem),
    ?_, fun p hp => hpaths (ho.seen_known p hp), ?_⟩
  · rw [List.map_append, List.map_singleton, List.nodup_append_comm]
    exact List.nodup_cons.mpr ⟨hnew, ho.unique⟩
  · intro call hcall
    obtain ⟨v, hv, hrest⟩ := ho.begun call hcall
    exact ⟨v, hkeep hv, hrest⟩
  · intro p
    rcases ho.counted p with hcount | ⟨hcount, hsettled⟩
    · exact .inl hcount
    · refine .inr ⟨hcount, ?_⟩
      rcases hsettled with hcurrent | ⟨v, hv, hover⟩
      · exact .inl hcurrent
      · exact .inr ⟨v, hkeep hv, hover⟩
  · intro item hitem v hv hpath
    rcases List.mem_append.mp hv with hv | hv
    · exact ho.waited item hitem v hv hpath
    · rw [List.mem_singleton.mp hv] at hpath
      exact absurd (hpath ▸ ho.queue_known item hitem) hnew
  · intro p hp
    obtain ⟨hqueue, v, hv, hrest⟩ := ho.current p hp
    exact ⟨hqueue, v, hkeep hv, hrest⟩
  · intro v hv hseen
    rcases List.mem_append.mp hv with hv | hv
    · exact ho.covered v hv hseen
    · rw [List.mem_singleton.mp hv] at hseen
      exact absurd (ho.seen_known _ hseen) hnew

/-- A change that ends a call, or none. -/
structure Ends (f : Workspace → Workspace) : Prop where
  path : ∀ w, (f w).path = w.path
  role : ∀ w, (f w).role = w.role
  pending : ∀ w, (f w).status = .pending ↔ w.status = .pending
  running : ∀ w, (f w).status ≠ .running
  closed : ∀ w, w.closed → (f w).closed

theorem orderly_rewrite (ho : Orderly stale h) (hf : Ends f) (path : Path) :
    Orderly stale { h with bus := rewrite path f h.bus } := by
  have hpaths : (rewrite path f h.bus).map Workspace.path = h.bus.map Workspace.path :=
    paths_rewrite hf.path
  have hpending (v : Workspace) :
      (if v.path = path then f v else v).status = .pending ↔ v.status = .pending := by
    split
    · exact hf.pending v
    · exact Iff.rfl
  refine ⟨?_, ?_, ho.apart, ?_, ?_, ho.queue_nodup, ?_, ?_, ?_, ?_⟩
  · rw [hpaths]
    exact ho.unique
  · intro call hcall
    obtain ⟨v, hv, hpath, hnot, hstarted⟩ := ho.begun call hcall
    refine ⟨_, mem_rewrite.mpr ⟨v, hv, rfl⟩, ?_, fun hno => hnot ((hpending v).mp hno), ?_⟩
    · rw [path_of_mem_rewrite hf.path, hpath]
    · split
      · exact fun hrunning => absurd hrunning (hf.running v)
      · exact hstarted
  · intro p
    rcases ho.counted p with hcount | ⟨hcount, hsettled⟩
    · exact .inl hcount
    · refine .inr ⟨hcount, ?_⟩
      rcases hsettled with hcurrent | ⟨v, hv, hpath, hover⟩
      · exact .inl hcurrent
      · refine .inr ⟨_, mem_rewrite.mpr ⟨v, hv, rfl⟩, ?_, ?_⟩
        · rw [path_of_mem_rewrite hf.path, hpath]
        · split
          · exact hf.closed v hover
          · exact hover
  · intro item hitem w hw hpath hrunning
    obtain ⟨v, hv, rfl⟩ := mem_rewrite.mp hw
    rw [path_of_mem_rewrite hf.path] at hpath
    split at hrunning
    · exact absurd hrunning (hf.running v)
    · rename_i hne
      rw [if_neg hne]
      exact ho.waited item hitem v hv hpath hrunning
  · intro item hitem
    rw [hpaths]
    exact ho.queue_known item hitem
  · intro p hp
    obtain ⟨hqueue, v, hv, hpath, hnot⟩ := ho.current p hp
    refine ⟨hqueue, _, mem_rewrite.mpr ⟨v, hv, rfl⟩, ?_, fun hno => hnot ((hpending v).mp hno)⟩
    rw [path_of_mem_rewrite hf.path, hpath]
  · intro p hp
    rw [hpaths]
    exact ho.seen_known p hp
  · intro w hw hseen hstatus hrole
    obtain ⟨v, hv, rfl⟩ := mem_rewrite.mp hw
    rw [path_of_mem_rewrite hf.path] at hseen ⊢
    have hsame : (if v.path = path then f v else v).role = v.role := by
      split
      · exact hf.role v
      · rfl
    rw [hsame] at hrole
    exact ho.covered v hv hseen ((hpending v).mp hstatus) hrole

theorem ends_ended (now : ℚ) (ok : Bool) : Ends (ended now ok) := by
  have hcases (w : Workspace) : w.status = .pending ∧ ended now ok w = w ∨
      w.status ≠ .pending ∧ ended now ok w = finished now ok w := by
    by_cases hw : w.status = .pending
    · exact .inl ⟨hw, if_pos hw⟩
    · exact .inr ⟨hw, if_neg hw⟩
  have hover (w : Workspace) : (finished now ok w).closed := by
    cases ok with
    | true => exact .inl rfl
    | false => exact .inr rfl
  constructor
  · intro w
    rcases hcases w with ⟨-, h⟩ | ⟨-, h⟩ <;> rw [h]
    rfl
  · intro w
    rcases hcases w with ⟨-, h⟩ | ⟨-, h⟩ <;> rw [h]
    rfl
  · intro w
    rcases hcases w with ⟨-, h⟩ | ⟨hw, h⟩
    · rw [h]
    · rw [h]
      refine iff_of_false (fun hno => ?_) hw
      rcases hover w with hstatus | hstatus <;> rw [hstatus] at hno <;> cases hno
  · intro w hno
    rcases hcases w with ⟨hw, h⟩ | ⟨-, h⟩
    · rw [h, hw] at hno
      cases hno
    · rw [h] at hno
      rcases hover w with hstatus | hstatus <;> rw [hstatus] at hno <;> cases hno
  · intro w hw
    rcases hcases w with ⟨-, h⟩ | ⟨-, h⟩
    · rw [h]
      exact hw
    · rw [h]
      exact hover w

/-! ## What the worker does -/

theorem queued_some {now : ℚ} {w : Workspace} {item : QueuedDirective}
    (hq : queued stale now w = some item) :
    item.workspace = w.path ∧ (w.status = .running → ∀ started, w.startedAt = some started →
      started + stale ≤ now) := by
  unfold queued at hq
  split at hq
  · rename_i hready
    obtain ⟨subsystem, -, rfl⟩ := Option.map_eq_some_iff.mp hq
    refine ⟨rfl, fun hrunning started hstarted => ?_⟩
    have hstale : isStaleRunning stale now w = true := by
      rcases Bool.or_eq_true_iff.mp hready with hpending | hstale
      · rw [hrunning] at hpending
        cases hpending
      · exact hstale
    rw [isStaleRunning, hstarted] at hstale
    have hage : stale ≤ now - started := of_decide_eq_true (Bool.and_eq_true_iff.mp hstale).2
    linarith
  · cases hq

theorem mem_scan {now : ℚ} {item : QueuedDirective} :
    item ∈ scanFileDirectives stale now bus ↔ ∃ w ∈ bus, queued stale now w = some item := by
  rw [scanFileDirectives, List.mem_filterMap]
  simp only [(sortBy_perm _ bus).mem_iff]

theorem nodup_scan {now : ℚ} (hbus : (bus.map Workspace.path).Nodup) :
    ((scanFileDirectives stale now bus).map QueuedDirective.workspace).Nodup := by
  have hsorted : ((sortBy (fun w => toLex w.path) bus).map Workspace.path).Nodup :=
    ((sortBy_perm _ bus).map _).nodup_iff.mpr hbus
  rw [scanFileDirectives]
  generalize sortBy (fun w => toLex w.path) bus = sorted at hsorted
  induction sorted with
  | nil => exact List.nodup_nil
  | cons w sorted ih =>
    obtain ⟨hw, hsorted⟩ := List.nodup_cons.mp hsorted
    rw [List.filterMap_cons]
    cases hq : queued stale now w with
    | none => exact ih hsorted
    | some item =>
      refine List.nodup_cons.mpr ⟨fun hmem => hw ?_, ih hsorted⟩
      obtain ⟨item', hitem', hpath⟩ := List.mem_map.mp hmem
      obtain ⟨v, hv, hqv⟩ := List.mem_filterMap.mp hitem'
      rw [← (queued_some hq).1, ← hpath, (queued_some hqv).1]
      exact List.mem_map_of_mem hv

theorem orderly_scan (ho : Orderly stale h) (hidle : h.worker = .idle) :
    Orderly stale { h with
      worker := .working (h.bus.map Workspace.path) (scanFileDirectives stale h.clock h.bus) } := by
  have hcurrent : h.worker.current = none := by rw [hidle]; rfl
  refine ⟨ho.unique, ho.begun, ho.apart, ?_, ?_, nodup_scan ho.unique, ?_,
    (fun _ hp => nomatch hp), fun _ hp => hp, ?_⟩
  · intro p
    rcases ho.counted p with hcount | ⟨hcount, hsettled⟩
    · exact .inl hcount
    · refine .inr ⟨hcount, .inr ?_⟩
      rcases hsettled with hno | hover
      · rw [hcurrent] at hno
        cases hno
      · exact hover
  · intro item hitem w hw hpath
    obtain ⟨v, hv, hq⟩ := mem_scan.mp hitem
    obtain ⟨hitempath, hstale⟩ := queued_some hq
    obtain rfl := ho.eq_of_path hw hv (hpath.trans hitempath)
    exact hstale
  · intro item hitem
    obtain ⟨v, hv, hq⟩ := mem_scan.mp hitem
    rw [(queued_some hq).1]
    exact List.mem_map_of_mem hv
  · intro w hw _ hpending hrole
    obtain ⟨subsystem, hsubsystem⟩ := Option.isSome_iff_exists.mp hrole
    have hq : queued stale h.clock w = some ⟨w.path, w.role, w.directive, subsystem, w.actor⟩ := by
      rw [queued, hpending, hsubsystem]
      rfl
    exact List.mem_map.mpr ⟨_, mem_scan.mpr ⟨w, hw, hq⟩, rfl⟩

theorem orderly_kill (ho : Orderly stale h) :
    Orderly stale { h with worker := .idle, killed := h.killed ++ h.worker.current.toList } := by
  refine ⟨ho.unique, ho.begun, ho.apart, ?_, fun _ hi => absurd hi List.not_mem_nil, List.nodup_nil,
    fun _ hi => absurd hi List.not_mem_nil, (fun _ hp => nomatch hp),
    fun _ hp => absurd hp List.not_mem_nil, fun _ _ hseen => absurd hseen List.not_mem_nil⟩
  intro p
  dsimp only
  rw [List.count_append]
  rcases ho.counted p with hcount | ⟨hcount, hsettled⟩
  · exact .inl (by omega)
  · rcases hsettled with hcurrent | hover
    · rw [hcurrent, Option.toList_some, List.count_singleton_self, hcount]
      exact .inl le_rfl
    · by_cases hcurrent : h.worker.current = some p
      · rw [hcurrent, Option.toList_some, List.count_singleton_self, hcount]
        exact .inl le_rfl
      · have hnone : h.worker.current.toList.count p = 0 := by
          rw [List.count_eq_zero, Option.mem_toList]
          exact hcurrent
        rw [hnone, hcount]
        exact .inr ⟨rfl, .inr hover⟩

/-- The call of the current item ends. -/
theorem orderly_returned (ho : Orderly stale h) {item : QueuedDirective} {seen : List Path}
    {queue : List QueuedDirective} (hcalling : h.worker = .calling item seen queue) (ok : Bool) :
    Orderly stale { h with
      bus := rewrite item.workspace (finished h.clock ok) h.bus
      worker := .working seen queue } := by
  have hcurrent : h.worker.current = some item.workspace := by rw [hcalling]; rfl
  have hqueue : h.worker.queue = queue := by rw [hcalling]; rfl
  have hseen : h.worker.seen = seen := by rw [hcalling]; rfl
  obtain ⟨-, v, hv, hpath, hnot⟩ := ho.current item.workspace hcurrent
  have hsame : rewrite item.workspace (finished h.clock ok) h.bus =
      rewrite item.workspace (ended h.clock ok) h.bus := by
    apply List.map_congr_left
    intro w hw
    by_cases hwpath : w.path = item.workspace
    · obtain rfl := ho.eq_of_path hw hv (hwpath.trans hpath.symm)
      rw [if_pos hwpath, if_pos hwpath, ended, if_neg hnot]
    · rw [if_neg hwpath, if_neg hwpath]
  have hended := orderly_rewrite ho (ends_ended h.clock ok) item.workspace
  rw [hsame]
  refine ⟨hended.unique, hended.begun, hended.apart, ?_, hqueue ▸ hended.waited,
    hqueue ▸ hended.queue_nodup, hqueue ▸ hended.queue_known, (fun _ hp => nomatch hp),
    hseen ▸ hended.seen_known, ?_⟩
  · intro p
    rcases hended.counted p with hcount | ⟨hcount, hsettled⟩
    · exact .inl hcount
    · refine .inr ⟨hcount, .inr ?_⟩
      rcases hsettled with hno | hover
      · obtain rfl : item.workspace = p := Option.some.inj (hcurrent.symm.trans hno)
        refine ⟨_, mem_rewrite.mpr ⟨v, hv, rfl⟩, ?_, ?_⟩
        · rw [path_of_mem_rewrite (ends_ended h.clock ok).path, hpath]
        · rw [if_pos hpath, ended, if_neg hnot]
          cases ok with
          | true => exact .inl rfl
          | false => exact .inr rfl
      · exact hover
  · intro w hw hwseen
    have hcovered := hended.covered w hw (hseen.symm ▸ hwseen)
    rw [show ({ h with bus := rewrite item.workspace (ended h.clock ok) h.bus } : Host).worker.queue =
      queue from hqueue] at hcovered
    exact hcovered

/-- An item that cannot be claimed is passed over. -/
theorem orderly_skip (ho : Orderly stale h) {item : QueuedDirective} {seen : List Path}
    {queue : List QueuedDirective} (hworking : h.worker = .working seen (item :: queue))
    (hskip : ∀ w ∈ h.bus, w.path = item.workspace → w.status ≠ .pending) :
    Orderly stale { h with worker := .working seen queue } := by
  have hqueue : h.worker.queue = item :: queue := by rw [hworking]; rfl
  have hseen : h.worker.seen = seen := by rw [hworking]; rfl
  have hcurrent : h.worker.current = none := by rw [hworking]; rfl
  have hwaited := ho.waited
  have hnodup := ho.queue_nodup
  have hknown := ho.queue_known
  rw [hqueue] at hwaited hnodup hknown
  refine ⟨ho.unique, ho.begun, ho.apart, ?_,
    fun i hi => hwaited i (List.mem_cons_of_mem item hi), (List.nodup_cons.mp hnodup).2,
    fun i hi => hknown i (List.mem_cons_of_mem item hi), (fun _ hp => nomatch hp),
    hseen ▸ ho.seen_known, ?_⟩
  · intro p
    rcases ho.counted p with hcount | ⟨hcount, hno | hover⟩
    · exact .inl hcount
    · rw [hcurrent] at hno
      cases hno
    · exact .inr ⟨hcount, .inr hover⟩
  · intro w hw hwseen hpending hrole
    have hcovered := ho.covered w hw (hseen.symm ▸ hwseen) hpending hrole
    rw [hqueue, List.map_cons, List.mem_cons] at hcovered
    rcases hcovered with hpath | hrest
    · exact absurd hpending (hskip w hw hpath)
    · exact hrest

/-- The tick ends when nothing is left. -/
theorem orderly_idle (ho : Orderly stale h) {seen : List Path} (hworking : h.worker = .working seen []) :
    Orderly stale { h with worker := .idle } := by
  have hcurrent : h.worker.current = none := by rw [hworking]; rfl
  have hidle := orderly_kill ho
  rw [hcurrent, Option.toList_none, List.append_nil] at hidle
  exact hidle

theorem orderly_claim (hstale : 0 ≤ stale) (ho : Orderly stale h) {item : QueuedDirective}
    {seen : List Path} {queue : List QueuedDirective}
    (hworking : h.worker = .working seen (item :: queue)) {w : Workspace} (hw : w ∈ h.bus)
    (hpath : w.path = item.workspace) (hready : w.status = .pending ∨ w.status = .running) :
    Orderly stale { h with
      bus := rewrite item.workspace (claimed h.clock) h.bus
      worker := .calling item seen queue
      invoked := h.invoked ++ [⟨item.subsystem.tool, item, h.clock⟩] } := by
  have hqueue : h.worker.queue = item :: queue := by rw [hworking]; rfl
  have hseen : h.worker.seen = seen := by rw [hworking]; rfl
  have hcurrent : h.worker.current = none := by rw [hworking]; rfl
  have hwaited := ho.waited
  have hnodup := ho.queue_nodup
  have hknown := ho.queue_known
  rw [hqueue] at hwaited hnodup hknown
  obtain ⟨hfresh, hnodup⟩ := List.nodup_cons.mp hnodup
  have hpathEq (v : Workspace) : (claimed h.clock v).path = v.path := rfl
  have hpaths : (rewrite item.workspace (claimed h.clock) h.bus).map Workspace.path =
      h.bus.map Workspace.path := paths_rewrite hpathEq
  have hmine : claimed h.clock w ∈ rewrite item.workspace (claimed h.clock) h.bus :=
    mem_rewrite.mpr ⟨w, hw, if_pos hpath⟩
  -- an earlier call for this workspace is long enough ago
  have hearlier : ∀ call ∈ h.invoked, call.item.workspace = item.workspace →
      call.time + stale ≤ h.clock := by
    intro call hcall hsame
    obtain ⟨v, hv, hvpath, hnot, hstarted⟩ := ho.begun call hcall
    obtain rfl := ho.eq_of_path hv hw (hvpath.trans (hsame.trans hpath.symm))
    have hrunning : v.status = .running := hready.resolve_left hnot
    obtain ⟨started, hstart, hle⟩ := hstarted hrunning
    have hwait := hwaited item List.mem_cons_self v hv hpath hrunning started hstart
    linarith
  refine ⟨?_, ?_, ?_, ?_, ?_, hnodup, ?_, ?_, ?_, ?_⟩
  · rw [hpaths]
    exact ho.unique
  · intro call hcall
    rcases List.mem_append.mp hcall with hcall | hcall
    · by_cases hsame : call.item.workspace = item.workspace
      · refine ⟨_, hmine, hpath.trans hsame.symm, (fun hno => nomatch hno), fun _ => ?_⟩
        have hbefore := hearlier call hcall hsame
        exact ⟨h.clock, rfl, by linarith⟩
      · obtain ⟨v, hv, hvpath, hrest⟩ := ho.begun call hcall
        have hne : v.path ≠ item.workspace := fun hno => hsame (hvpath.symm.trans hno)
        exact ⟨v, mem_rewrite.mpr ⟨v, hv, if_neg hne⟩, hvpath, hrest⟩
    · obtain rfl := List.mem_singleton.mp hcall
      exact ⟨_, hmine, hpath, (fun hno => nomatch hno), fun _ => ⟨h.clock, rfl, le_rfl⟩⟩
  · apply List.pairwise_append.mpr
    refine ⟨ho.apart, List.pairwise_singleton _ _, ?_⟩
    intro call hcall call' hcall' hsame
    obtain rfl := List.mem_singleton.mp hcall'
    exact hearlier call hcall hsame
  · intro p
    dsimp only
    rw [List.countP_append, List.countP_singleton]
    have hother : p ≠ item.workspace → h.settled p → ∃ v ∈ rewrite item.workspace (claimed h.clock)
        h.bus, v.path = p ∧ v.closed := by
      intro hp hsettled
      rcases hsettled with hno | ⟨v, hv, hvpath, hover⟩
      · rw [hcurrent] at hno
        cases hno
      · have hne : v.path ≠ item.workspace := fun hno => hp (hvpath.symm.trans hno)
        exact ⟨v, mem_rewrite.mpr ⟨v, hv, if_neg hne⟩, hvpath, hover⟩
    by_cases hp : p = item.workspace
    · subst hp
      have hnot : ¬ h.settled item.workspace := by
        rintro (hno | ⟨v, hv, hvpath, hover⟩)
        · rw [hcurrent] at hno
          cases hno
        · obtain rfl := ho.eq_of_path hv hw (hvpath.trans hpath.symm)
          rcases hready with hr | hr <;> rcases hover with hd | hd <;> rw [hr] at hd <;> cases hd
      have hcount := (ho.counted item.workspace).resolve_right fun hno => hnot hno.2
      rw [if_pos (decide_eq_true rfl)]
      rcases Nat.lt_or_ge (h.invoked.countP fun call => call.item.workspace = item.workspace)
        (h.killed.count item.workspace) with hlt | hge
      · exact .inl hlt
      · exact .inr ⟨by omega, .inl rfl⟩
    · have hnone : ¬ decide (item.workspace = p) = true := by simpa using Ne.symm hp
      rw [if_neg hnone, Nat.add_zero]
      rcases ho.counted p with hcount | ⟨hcount, hsettled⟩
      · exact .inl hcount
      · exact .inr ⟨hcount, .inr (hother hp hsettled)⟩
  · intro i hi v hv hvpath hrunning
    obtain ⟨u, hu, rfl⟩ := mem_rewrite.mp hv
    rw [path_of_mem_rewrite hpathEq] at hvpath
    have hne : u.path ≠ item.workspace := by
      intro hno
      apply hfresh
      exact List.mem_map.mpr ⟨i, hi, hvpath.symm.trans hno⟩
    rw [if_neg hne] at hrunning ⊢
    exact hwaited i (List.mem_cons_of_mem item hi) u hu hvpath hrunning
  · intro i hi
    rw [hpaths]
    exact hknown i (List.mem_cons_of_mem item hi)
  · intro p hp
    obtain rfl : item.workspace = p := Option.some.inj hp
    exact ⟨hfresh, _, hmine, hpath, fun hno => nomatch hno⟩
  · intro p hp
    rw [hpaths]
    exact ho.seen_known p (hseen.symm ▸ hp)
  · intro v hv hvseen hpending hrole
    obtain ⟨u, hu, rfl⟩ := mem_rewrite.mp hv
    rw [path_of_mem_rewrite hpathEq] at hvseen ⊢
    have hne : u.path ≠ item.workspace := by
      intro hno
      rw [if_pos hno] at hpending
      cases hpending
    rw [if_neg hne] at hpending hrole
    have hcovered := ho.covered u hu (hseen.symm ▸ hvseen) hpending hrole
    rw [hqueue, List.map_cons, List.mem_cons] at hcovered
    exact hcovered.resolve_left hne

theorem orderly_next (hstale : 0 ≤ stale) (ho : Orderly stale h) {seen : List Path}
    {queue : List QueuedDirective} (hworking : h.worker = .working seen queue) :
    Orderly stale (dispatchNext h seen queue) := by
  cases queue with
  | nil => exact orderly_idle ho hworking
  | cons item queue =>
    unfold dispatchNext
    dsimp only
    cases hfind : h.bus.find? fun w => w.path = item.workspace with
    | none =>
      apply orderly_skip ho hworking
      intro w hw hpath
      have hno := List.find?_eq_none.mp hfind w hw
      exact absurd (decide_eq_true hpath) hno
    | some w =>
      have hw := List.mem_of_find?_eq_some hfind
      have hpath : w.path = item.workspace := by simpa using List.find?_some hfind
      dsimp only
      split
      · rename_i hready
        exact orderly_claim hstale ho hworking hw hpath hready
      · rename_i hready
        apply orderly_skip ho hworking
        intro v hv hvpath hpending
        obtain rfl := ho.eq_of_path hv hw (hvpath.trans hpath.symm)
        exact hready (.inl hpending)

theorem orderly_act (hstale : 0 ≤ stale) (ho : Orderly stale h) {a : Act} {h' : Host}
    (hact : act stale h a = some h') : Orderly stale h' := by
  unfold act at hact
  cases a with
  | enqueueDirective path role directive actor | beginDirective path role directive actor =>
    dsimp only at hact
    split at hact
    · cases hact
    · rename_i hnew
      obtain rfl := Option.some.inj hact
      exact orderly_add ho hnew
  | completeDirective path ok =>
    obtain rfl := Option.some.inj hact
    exact orderly_rewrite ho (ends_ended h.clock ok) path
  | scan =>
    cases hworker : h.worker with
    | idle =>
      rw [hworker] at hact
      obtain rfl := Option.some.inj hact
      exact orderly_scan ho hworker
    | working seen queue | calling item seen queue =>
      rw [hworker] at hact
      cases hact
  | next =>
    cases hworker : h.worker with
    | working seen queue =>
      rw [hworker] at hact
      obtain rfl := Option.some.inj hact
      exact orderly_next hstale ho hworker
    | idle | calling item seen queue =>
      rw [hworker] at hact
      cases hact
  | returned ok =>
    cases hworker : h.worker with
    | calling item seen queue =>
      rw [hworker] at hact
      obtain rfl := Option.some.inj hact
      exact orderly_returned ho hworker ok
    | idle | working seen queue =>
      rw [hworker] at hact
      cases hact
  | kill =>
    obtain rfl := Option.some.inj hact
    exact orderly_kill ho

/-- A directive that is enqueued and found by the next tick. -/
def oneTick : List Event :=
  [⟨0, .enqueueDirective ("p", "d") "qa" "TEST" "cli"⟩, ⟨1, .scan⟩, ⟨1, .next⟩,
    ⟨2, .returned true⟩]

end SpineFormal.Runtime.Worker
