import Mathlib.Data.List.Nodup
import SpineFormal.Base.DropOldest
import SpineFormal.Base.Run

/-!
# The realtime hub

Subscribers are filed under the project that they ask for, and under a sentinel when they ask
for all. Publishing schedules one callback for each entry under the project of the event and
under the sentinel; the event loop runs the callbacks in order, and each puts the event into the
bounded queue of its subscriber.
-/

namespace SpineFormal.Api.Realtime

set_option autoImplicit false

@[ext]
structure ProjectEvent where
  eventId : String
  projectId : String
  projectId_nonempty : projectId ≠ ""

instance : DecidableEq ProjectEvent := fun _ _ => decidable_of_iff' _ ProjectEvent.ext_iff

def maxQueue : Nat := 256

/-- The sentinel of the subscribers that want every project's events. -/
def anyKey : String := "__any__"

/-- `project_id or _ANY`. -/
def keyOf : Option String → String
  | none => anyKey
  | some projectId => if projectId = "" then anyKey else projectId

/-- What a subscriber asked for and has been given; `due` is what was published for it while it
was subscribed. -/
structure Client where
  projectId : Option String
  subscribed : Bool
  mailbox : Mailbox ProjectEvent maxQueue
  due : List ProjectEvent

namespace Client

def wants (c : Client) (e : ProjectEvent) : Bool :=
  c.projectId.all fun projectId => decide (projectId = e.projectId)

def owed (e : ProjectEvent) (c : Client) : Client :=
  if c.subscribed && c.wants e then { c with due := c.due ++ [e] } else c

/-- `_put_with_overflow`. -/
def putWithOverflow (e : ProjectEvent) (c : Client) : Client :=
  { c with mailbox := c.mailbox.put e }

def leave (c : Client) : Client := { c with subscribed := false }

/-- What the registry goes by. -/
def entry (c : Client) : Option String × Bool := (c.projectId, c.subscribed)

theorem entry_owed (e : ProjectEvent) (c : Client) : (c.owed e).entry = c.entry := by
  unfold owed
  split <;> rfl

end Client

/-- A subscriber is known by its place in `clients`. The registry is kept flat: the list of a key
is what is filed under it. -/
structure Hub where
  subscribers : List (String × Nat)
  scheduled : List (Nat × ProjectEvent)
  clients : List Client

inductive HubOp where
  | subscribe (projectId : Option String)
  | publish (e : ProjectEvent)
  /-- The loop runs the next callback. -/
  | runScheduled
  | get (i : Nat)
  | unsubscribe (i : Nat)

namespace Hub

def empty : Hub := ⟨[], [], []⟩

def filed (h : Hub) (key : String) : List Nat :=
  (h.subscribers.filter fun s => decide (s.1 = key)).map Prod.snd

def targets (h : Hub) (e : ProjectEvent) : List Nat := h.filed e.projectId ++ h.filed anyKey

def subscribe (h : Hub) (projectId : Option String) : Hub :=
  { h with
    subscribers := h.subscribers ++ [(keyOf projectId, h.clients.length)]
    clients := h.clients ++ [⟨projectId, true, .empty, []⟩] }

def publish (h : Hub) (e : ProjectEvent) : Hub :=
  { h with
    scheduled := h.scheduled ++ (h.targets e).map fun i => (i, e)
    clients := h.clients.map (Client.owed e) }

def unsubscribe (h : Hub) (i : Nat) : Hub :=
  { h with
    subscribers := h.subscribers.filter fun s => decide (s.2 ≠ i)
    clients := h.clients.modify i Client.leave }

/-- `none` where nothing is scheduled, or a reader waits for an event. -/
def step (h : Hub) : HubOp → Option Hub
  | .subscribe projectId => some (h.subscribe projectId)
  | .publish e => some (h.publish e)
  | .runScheduled =>
    match h.scheduled with
    | [] => none
    | (i, e) :: rest =>
      some { h with scheduled := rest, clients := h.clients.modify i (Client.putWithOverflow e) }
  | .get i =>
    match (h.clients[i]?).bind fun c => c.mailbox.get with
    | none => none
    | some m => some { h with clients := h.clients.modify i fun c => { c with mailbox := m } }
  | .unsubscribe i => some (h.unsubscribe i)

/-- The callbacks for one subscriber that have not run yet. -/
def pending (h : Hub) (i : Nat) : List ProjectEvent :=
  (h.scheduled.filter fun s => decide (s.1 = i)).map Prod.snd

end Hub

/-! ## The law -/

/-- What was published for the client has been delivered or is scheduled, in the order of
publication, and a delivered event is dropped unread only for 256 later ones. -/
def FeedKept (c : Client) (pending : List ProjectEvent) : Prop :=
  c.due = c.mailbox.delivered ++ pending ∧ c.mailbox.LossLate

def FeedsKept (h : Hub) : Prop := ∀ i c, h.clients[i]? = some c → FeedKept c (h.pending i)

/-- Whoever is filed under the sentinel at a publication has asked for all projects, and the event
is not for a project with the name of the sentinel. -/
def SentinelApart (h : Hub) : HubOp → Prop
  | .publish e => ∀ (i : Nat) (c : Client), h.clients[i]? = some c → c.subscribed = true →
      keyOf c.projectId = anyKey → c.projectId = none ∧ e.projectId ≠ anyKey
  | _ => True

/-! ## The registry -/

/-- Each subscriber is filed once, under its key, and callbacks are for clients. -/
structure Registered (h : Hub) : Prop where
  once : (h.subscribers.map Prod.snd).Nodup
  filed : ∀ key i, (key, i) ∈ h.subscribers ↔
    ∃ c, h.clients[i]? = some c ∧ c.subscribed = true ∧ key = keyOf c.projectId
  known : ∀ s ∈ h.scheduled, s.1 < h.clients.length

/-- The registry does not look at the mailboxes. -/
theorem Registered.of_entries {h h' : Hub} (hr : Registered h)
    (hsubscribers : h'.subscribers = h.subscribers)
    (hentries : h'.clients.map Client.entry = h.clients.map Client.entry)
    (hknown : ∀ s ∈ h'.scheduled, s.1 < h.clients.length) : Registered h' := by
  have hlength : h'.clients.length = h.clients.length := by
    simpa using congrArg List.length hentries
  have hat : ∀ i : Nat, (h'.clients[i]?).map Client.entry = (h.clients[i]?).map Client.entry := by
    intro i
    rw [← List.getElem?_map, hentries, List.getElem?_map]
  refine ⟨hsubscribers ▸ hr.once, fun key i => ?_, fun s hs => hlength ▸ hknown s hs⟩
  rw [hsubscribers, hr.filed]
  have hi := hat i
  constructor
  · rintro ⟨c, hc, hsubscribed, rfl⟩
    rw [hc] at hi
    obtain ⟨c', hc', hentry⟩ := Option.map_eq_some_iff.mp hi
    obtain ⟨hproject, hsub⟩ := Prod.mk.inj hentry
    exact ⟨c', hc', hsub.trans hsubscribed, by rw [hproject]⟩
  · rintro ⟨c', hc', hsubscribed, rfl⟩
    rw [hc'] at hi
    obtain ⟨c, hc, hentry⟩ := Option.map_eq_some_iff.mp hi.symm
    obtain ⟨hproject, hsub⟩ := Prod.mk.inj hentry
    exact ⟨c, hc, hsub.trans hsubscribed, by rw [hproject]⟩

theorem map_entry_modify (clients : List Client) (i : Nat) {f : Client → Client}
    (hf : ∀ c, (f c).entry = c.entry) :
    (clients.modify i f).map Client.entry = clients.map Client.entry := by
  apply List.ext_getElem?
  intro j
  rw [List.getElem?_map, List.getElem?_map, List.getElem?_modify]
  cases clients[j]? with
  | none => rfl
  | some c =>
    by_cases hij : i = j
    · simp [hij, hf]
    · simp [hij]

theorem mem_filed {h : Hub} {key : String} {i : Nat} :
    i ∈ h.filed key ↔ (key, i) ∈ h.subscribers := by
  unfold Hub.filed
  constructor
  · intro hi
    obtain ⟨⟨key', i'⟩, hfilter, hi'⟩ := List.mem_map.mp hi
    obtain ⟨hmem, hkey⟩ := List.mem_filter.mp hfilter
    obtain rfl : key' = key := of_decide_eq_true hkey
    obtain rfl : i' = i := hi'
    exact hmem
  · intro hmem
    exact List.mem_map.mpr ⟨(key, i), List.mem_filter.mpr ⟨hmem, decide_eq_true rfl⟩, rfl⟩

theorem Registered.lt_length {h : Hub} (hr : Registered h) {key : String} {i : Nat}
    (hi : (key, i) ∈ h.subscribers) : i < h.clients.length := by
  obtain ⟨c, hc, -⟩ := (hr.filed key i).mp hi
  exact (List.getElem?_eq_some_iff.mp hc).1

theorem Registered.empty : Registered Hub.empty :=
  ⟨List.nodup_nil, fun key i => by simp [Hub.empty], fun s hs => absurd hs List.not_mem_nil⟩

theorem Registered.subscribe {h : Hub} (hr : Registered h) (projectId : Option String) :
    Registered (h.subscribe projectId) := by
  refine ⟨?_, fun key i => ?_, fun s hs => ?_⟩
  · rw [Hub.subscribe, List.map_append]
    refine List.nodup_append.mpr ⟨hr.once, List.nodup_singleton _, fun i hi j hj => ?_⟩
    obtain ⟨⟨key, i'⟩, hmem, rfl⟩ := List.mem_map.mp hi
    rw [List.mem_singleton.mp hj]
    exact Nat.ne_of_lt (hr.lt_length hmem)
  · rw [Hub.subscribe, List.mem_append, hr.filed]
    rcases Nat.lt_trichotomy i h.clients.length with hlt | rfl | hgt
    · rw [List.getElem?_append_left hlt]
      refine or_iff_left fun hlast => ?_
      exact absurd (Prod.mk.inj (List.mem_singleton.mp hlast)).2 (Nat.ne_of_lt hlt)
    · rw [List.getElem?_append_right (Nat.le_refl _), Nat.sub_self]
      simp
    · have hlong :
          (h.clients ++ [(⟨projectId, true, .empty, []⟩ : Client)]).length ≤ i := by
        rw [List.length_append]
        exact hgt
      rw [List.getElem?_eq_none hlong, List.getElem?_eq_none (Nat.le_of_lt hgt)]
      simp only [reduceCtorEq, false_and, exists_false, false_or, iff_false]
      intro hlast
      exact absurd (Prod.mk.inj (List.mem_singleton.mp hlast)).2 (Nat.ne_of_gt hgt)
  · rw [Hub.subscribe, List.length_append]
    exact Nat.lt_succ_of_lt (hr.known s hs)

theorem Registered.unsubscribe {h : Hub} (hr : Registered h) (i : Nat) :
    Registered (h.unsubscribe i) := by
  refine ⟨?_, fun key j => ?_, fun s hs => ?_⟩
  · exact hr.once.sublist (List.filter_sublist.map _)
  · rw [Hub.unsubscribe, List.mem_filter, hr.filed, List.getElem?_modify]
    cases hj : h.clients[j]? with
    | none => simp
    | some c =>
      by_cases hij : i = j
      · simp [hij, Client.leave]
      · simp [hij, Ne.symm hij]
  · rw [Hub.unsubscribe, List.length_modify]
    exact hr.known s hs

theorem Registered.publish {h : Hub} (hr : Registered h) (e : ProjectEvent) :
    Registered (h.publish e) := by
  refine hr.of_entries rfl ?_ fun s hs => ?_
  · rw [Hub.publish, List.map_map]
    exact List.map_congr_left fun c _ => c.entry_owed e
  · rcases List.mem_append.mp hs with hs | hs
    · exact hr.known s hs
    · obtain ⟨i, hi, rfl⟩ := List.mem_map.mp hs
      rcases List.mem_append.mp hi with hi | hi <;> exact hr.lt_length (mem_filed.mp hi)

theorem Registered.step {h h' : Hub} {op : HubOp} (hr : Registered h) (hstep : h.step op = some h') :
    Registered h' := by
  cases op with
  | subscribe projectId =>
    obtain rfl : h.subscribe projectId = h' := Option.some.inj hstep
    exact hr.subscribe projectId
  | publish e =>
    obtain rfl : h.publish e = h' := Option.some.inj hstep
    exact hr.publish e
  | runScheduled =>
    rw [Hub.step] at hstep
    split at hstep
    · cases hstep
    · rename_i i e rest hscheduled
      cases hstep
      refine hr.of_entries rfl (map_entry_modify _ _ fun c => rfl) fun s hs => ?_
      exact hr.known s (hscheduled ▸ List.mem_cons_of_mem _ hs)
  | get i =>
    rw [Hub.step] at hstep
    split at hstep
    · cases hstep
    · cases hstep
      exact hr.of_entries rfl (map_entry_modify _ _ fun c => rfl) hr.known
  | unsubscribe i =>
    obtain rfl : h.unsubscribe i = h' := Option.some.inj hstep
    exact hr.unsubscribe i

/-! ## What one operation does to the feeds -/

/-- How often a publication schedules a subscriber: once for each list that it is filed in. -/
theorem Registered.count_targets {h : Hub} (hr : Registered h) {i : Nat} {c : Client}
    (hc : h.clients[i]? = some c) (e : ProjectEvent) :
    (h.targets e).count i =
      (c.subscribed && decide (e.projectId = keyOf c.projectId)).toNat +
        (c.subscribed && decide (anyKey = keyOf c.projectId)).toNat := by
  have hfiled : ∀ key, (h.filed key).count i =
      (c.subscribed && decide (key = keyOf c.projectId)).toNat := by
    intro key
    have hnodup : (h.filed key).Nodup := hr.once.sublist (List.filter_sublist.map _)
    have hmem : i ∈ h.filed key ↔ (c.subscribed && decide (key = keyOf c.projectId)) = true := by
      rw [mem_filed, hr.filed, hc]
      simp
    by_cases hin : i ∈ h.filed key
    · rw [List.count_eq_one_of_mem hnodup hin, hmem.mp hin]
      rfl
    · rw [List.count_eq_zero_of_not_mem hin, Bool.eq_false_iff.mpr fun h => hin (hmem.mpr h)]
      rfl
  rw [Hub.targets, List.count_append, hfiled, hfiled]

theorem pending_publish (h : Hub) (e : ProjectEvent) (i : Nat) :
    (h.publish e).pending i = h.pending i ++ List.replicate ((h.targets e).count i) e := by
  have htargets : ∀ targets : List Nat,
      (((targets.map fun j => (j, e)).filter fun s => decide (s.1 = i)).map Prod.snd) =
        List.replicate (targets.count i) e := by
    intro targets
    induction targets with
    | nil => rfl
    | cons j targets ih =>
      rw [List.map_cons, List.filter_cons, List.count_cons]
      by_cases hj : j = i
      · simp [hj, ih, List.replicate_succ]
      · simp [hj, ih]
  rw [Hub.pending, Hub.publish, List.filter_append, List.map_append, htargets]
  rfl

/-- A client's feed is kept by a publication that schedules it once if it wants the event, and
never if not. -/
theorem feedKept_owed_iff {c : Client} {pending : List ProjectEvent} (hkept : FeedKept c pending)
    (e : ProjectEvent) (n : Nat) :
    FeedKept (c.owed e) (pending ++ List.replicate n e) ↔ n = (c.subscribed && c.wants e).toNat := by
  obtain ⟨hdue, hloss⟩ := hkept
  unfold FeedKept Client.owed
  cases c.subscribed && c.wants e with
  | true =>
    simp only [if_true, Bool.toNat_true]
    rw [hdue, List.append_assoc]
    simp only [List.append_cancel_left_eq]
    constructor
    · intro h
      simpa using (congrArg List.length h.1).symm
    · rintro rfl
      exact ⟨rfl, hloss⟩
  | false =>
    simp only [Bool.false_eq_true, if_false, Bool.toNat_false]
    rw [hdue, ← List.append_assoc]
    constructor
    · intro h
      simpa using (congrArg List.length h.1)
    · rintro rfl
      exact ⟨(List.append_nil _).symm, hloss⟩

/-- A subscriber is scheduled as often as it wants the event, unless the sentinel is in play. -/
theorem scheduled_as_wanted_iff (c : Client) (e : ProjectEvent) :
    (c.subscribed && decide (e.projectId = keyOf c.projectId)).toNat +
        (c.subscribed && decide (anyKey = keyOf c.projectId)).toNat =
      (c.subscribed && c.wants e).toNat ↔
    (c.subscribed = true → keyOf c.projectId = anyKey →
      c.projectId = none ∧ e.projectId ≠ anyKey) := by
  cases c.subscribed with
  | false => simp
  | true =>
    simp only [Bool.true_and, forall_const]
    cases hproject : c.projectId with
    | none =>
      by_cases hany : e.projectId = anyKey <;> simp [keyOf, Client.wants, hproject, hany]
    | some projectId =>
      have hwants : c.wants e = decide (projectId = e.projectId) := by
        rw [Client.wants, hproject]
        rfl
      rw [hwants]
      by_cases hkey : keyOf (some projectId) = anyKey
      · simp only [hkey, decide_true, Bool.toNat_true, reduceCtorEq, false_and, imp_false,
          not_true_eq_false, iff_false]
        intro heq
        -- Only an event for the sentinel's name would be wanted, and it is scheduled twice.
        by_cases hwanted : projectId = e.projectId
        · have hany : e.projectId = anyKey := by
            rw [← hwanted, ← hkey, keyOf, if_neg (hwanted ▸ e.projectId_nonempty)]
          simp [hwanted, hany] at heq
        · simp [hwanted] at heq
      · have hself : keyOf (some projectId) = projectId := by
          refine if_neg fun hempty => hkey ?_
          rw [hempty, keyOf, if_pos rfl]
        rw [hself] at hkey ⊢
        simp only [decide_eq_false (Ne.symm hkey), Bool.toNat_false, Nat.add_zero, hkey,
          false_implies, iff_true]
        exact congrArg Bool.toNat (decide_eq_decide.mpr eq_comm)

theorem feedsKept_publish_iff {h : Hub} (hr : Registered h) (hkept : FeedsKept h)
    (e : ProjectEvent) : FeedsKept (h.publish e) ↔ SentinelApart h (.publish e) := by
  have hclient : ∀ (i : Nat) (c : Client), h.clients[i]? = some c →
      (FeedKept (c.owed e) ((h.publish e).pending i) ↔
        (c.subscribed = true → keyOf c.projectId = anyKey →
          c.projectId = none ∧ e.projectId ≠ anyKey)) := by
    intro i c hc
    rw [pending_publish, feedKept_owed_iff (hkept i c hc), hr.count_targets hc,
      scheduled_as_wanted_iff]
  have hclients : ∀ i : Nat, (h.publish e).clients[i]? = (h.clients[i]?).map (Client.owed e) :=
    fun i => List.getElem?_map
  constructor
  · intro hafter i c hc
    refine (hclient i c hc).mp (hafter i _ ?_)
    rw [hclients, hc]
    rfl
  · intro hsound i c' hc'
    rw [hclients] at hc'
    obtain ⟨c, hc, rfl⟩ := Option.map_eq_some_iff.mp hc'
    exact (hclient i c hc).mpr (hsound i c hc)

theorem FeedKept.put {c : Client} {e : ProjectEvent} {rest : List ProjectEvent}
    (h : FeedKept c (e :: rest)) : FeedKept (c.putWithOverflow e) rest := by
  have hcap : 0 < maxQueue := Nat.succ_pos _
  refine ⟨?_, h.2.put hcap e⟩
  rw [Client.putWithOverflow, Mailbox.delivered_put _ hcap, List.append_assoc]
  exact h.1

theorem FeedsKept.runScheduled {h h' : Hub} (hkept : FeedsKept h)
    (hstep : h.step .runScheduled = some h') : FeedsKept h' := by
  rw [Hub.step] at hstep
  split at hstep
  · cases hstep
  · rename_i j e rest hscheduled
    cases hstep
    intro i c' hc'
    rw [List.getElem?_modify] at hc'
    obtain ⟨c, hc, rfl⟩ := Option.map_eq_some_iff.mp hc'
    have hfeed := hkept i c hc
    rw [Hub.pending, hscheduled, List.filter_cons] at hfeed
    by_cases hij : j = i
    · rw [if_pos (by simpa using hij)] at hfeed
      rw [if_pos hij]
      exact hfeed.put
    · rw [if_neg (by simpa using hij)] at hfeed
      rw [if_neg hij]
      exact hfeed

theorem FeedsKept.get {h h' : Hub} {j : Nat} (hkept : FeedsKept h)
    (hstep : h.step (.get j) = some h') : FeedsKept h' := by
  rw [Hub.step] at hstep
  split at hstep
  · cases hstep
  · rename_i m hget
    cases hstep
    obtain ⟨reader, hreader, hm⟩ := Option.bind_eq_some_iff.mp hget
    intro i c' hc'
    rw [List.getElem?_modify] at hc'
    obtain ⟨c, hc, rfl⟩ := Option.map_eq_some_iff.mp hc'
    obtain ⟨hdue, hloss⟩ := hkept i c hc
    by_cases hij : j = i
    · subst hij
      obtain rfl : reader = c := Option.some.inj (hreader.symm.trans hc)
      rw [if_pos rfl]
      exact ⟨by rw [Mailbox.delivered_get hm]; exact hdue, hloss.get hm⟩
    · rw [if_neg hij]
      exact ⟨hdue, hloss⟩

theorem FeedsKept.subscribe {h : Hub} (hr : Registered h) (hkept : FeedsKept h)
    (projectId : Option String) : FeedsKept (h.subscribe projectId) := by
  intro i c hc
  rcases Nat.lt_or_ge i h.clients.length with hlt | hge
  · rw [Hub.subscribe, List.getElem?_append_left hlt] at hc
    exact hkept i c hc
  · rw [Hub.subscribe, List.getElem?_append_right hge] at hc
    obtain rfl := List.mem_singleton.mp (List.mem_of_getElem? hc)
    -- No callback is for a client that was not there.
    have hnone : (h.subscribe projectId).pending i = [] := by
      rw [Hub.pending, List.map_eq_nil_iff, List.filter_eq_nil_iff]
      intro s hs heq
      have hlt := hr.known s hs
      rw [of_decide_eq_true heq] at hlt
      exact absurd hlt (Nat.not_lt.mpr hge)
    rw [hnone]
    exact ⟨rfl, fun k a hk => by cases hk⟩

theorem FeedsKept.unsubscribe {h : Hub} (hkept : FeedsKept h) (j : Nat) :
    FeedsKept (h.unsubscribe j) := by
  intro i c' hc'
  rw [Hub.unsubscribe, List.getElem?_modify] at hc'
  obtain ⟨c, hc, rfl⟩ := Option.map_eq_some_iff.mp hc'
  have hfeed := hkept i c hc
  split <;> exact hfeed

theorem feedsKept_step_iff {h h' : Hub} {op : HubOp} (hr : Registered h) (hkept : FeedsKept h)
    (hstep : h.step op = some h') : FeedsKept h' ↔ SentinelApart h op := by
  cases op with
  | subscribe projectId =>
    obtain rfl : h.subscribe projectId = h' := Option.some.inj hstep
    exact iff_of_true (hkept.subscribe hr projectId) trivial
  | publish e =>
    obtain rfl : h.publish e = h' := Option.some.inj hstep
    exact feedsKept_publish_iff hr hkept e
  | runScheduled => exact iff_of_true (hkept.runScheduled hstep) trivial
  | get i => exact iff_of_true (hkept.get hstep) trivial
  | unsubscribe i =>
    obtain rfl : h.unsubscribe i = h' := Option.some.inj hstep
    exact iff_of_true (hkept.unsubscribe i) trivial

/-! ## Runs -/

/-- The runs in which every feed is kept are those whose publications keep clear of the sentinel.
In them a client reads what was published for it in that order, each event at most once. -/
theorem hub_feeds_kept_iff (ops : List HubOp) (h : Hub) :
    (Run (fun h op h' => FeedsKept h' ∧ h.step op = some h') Hub.empty ops h ↔
      Run (fun h op h' => SentinelApart h op ∧ h.step op = some h') Hub.empty ops h) ∧
    (Run (fun h op h' => SentinelApart h op ∧ h.step op = some h') Hub.empty ops h →
      ∀ i c, h.clients[i]? = some c →
        c.mailbox.received.Sublist c.due ∧ FeedKept c (h.pending i)) := by
  have hstart : FeedsKept Hub.empty := fun i c hc => by cases hc
  have hguard : Run (fun h op h' => FeedsKept h' ∧ h.step op = some h') Hub.empty ops h ↔
      Run (fun h op h' => SentinelApart h op ∧ h.step op = some h') Hub.empty ops h :=
    Run.guard_iff_of_invariant Registered.empty hstart (fun hr hstep => hr.step hstep)
      fun hr hkept hstep => feedsKept_step_iff hr hkept hstep
  refine ⟨hguard, fun hrun i c hc => ?_⟩
  have hkept : FeedsKept h :=
    (hguard.mpr hrun).invariant (I := fun _ h => FeedsKept h) hstart fun _ hstep => hstep.1
  have hfeed := hkept i c hc
  refine ⟨?_, hfeed⟩
  rw [hfeed.1]
  exact c.mailbox.received_sublist.trans (List.sublist_append_left _ _)

theorem sentinel_nonempty : anyKey ≠ "" := by decide

theorem shop_nonempty : "shop" ≠ "" := by decide

/-- A client of one project reads the event that is published for it. -/
theorem hub_feeds_kept_iff_oneEvent :
    ∃ c : Client, c.mailbox.received = [⟨"e1", "shop", shop_nonempty⟩] ∧
      c.mailbox.received.Sublist c.due := by
  obtain ⟨h, hrun, c, hc, hreceived⟩ : ∃ h,
      Run (fun h op h' => SentinelApart h op ∧ h.step op = some h') Hub.empty
        ([.subscribe (some "shop")] ++ [.publish ⟨"e1", "shop", shop_nonempty⟩] ++
          [.runScheduled] ++ [.get 0]) h ∧
        ∃ c, h.clients[0]? = some c ∧
          c.mailbox.received = [⟨"e1", "shop", shop_nonempty⟩] := by
    refine ⟨_, (((Run.single ⟨trivial, rfl⟩).snoc ⟨?published, rfl⟩).snoc ⟨trivial, rfl⟩).snoc
      ⟨trivial, rfl⟩, _, rfl, rfl⟩
    intro i c hc hsubscribed hkey
    obtain rfl := List.mem_singleton.mp (List.mem_of_getElem? hc)
    exact absurd hkey (by decide)
  exact ⟨c, hreceived, ((hub_feeds_kept_iff _ h).2 hrun 0 c hc).1⟩

/-- Who subscribes to all projects reads an event of the project `__any__` twice. -/
theorem sentinel_event_twice :
    ¬ ∀ (ops : List HubOp) (h : Hub), Run (fun h op h' => h.step op = some h') Hub.empty ops h →
      ∀ (i : Nat) (c : Client), h.clients[i]? = some c →
        c.mailbox.received.Sublist c.due := by
  intro hall
  obtain ⟨h, hrun, c, hc, hreceived, hdue⟩ : ∃ h,
      Run (fun h op h' => h.step op = some h') Hub.empty
        [.subscribe none, .publish ⟨"e1", anyKey, sentinel_nonempty⟩, .runScheduled,
          .runScheduled, .get 0, .get 0] h ∧
        ∃ c, h.clients[0]? = some c ∧ c.mailbox.received.length = 2 ∧ c.due.length = 1 := by
    exact ⟨_, Run.of_foldlM (fun h => h) rfl, _, rfl, rfl, rfl⟩
  have hlength := (hall _ h hrun 0 c hc).length_le
  omega

end SpineFormal.Api.Realtime
