import Mathlib.Algebra.Order.Ring.Int
import Mathlib.Data.List.Nodup
import Mathlib.Logic.Function.Basic
import SpineFormal.Base.Interleaving
import SpineFormal.Base.Run

/-!
# Tier overrides

`set_override` and `revoke_override` load the rows of a project, change them and write them all
back. A call waits twice, for the load and for the write, and either may fail; a failed load is an
empty one. Other calls run meanwhile.
-/

namespace SpineFormal.Cost.UserOverride

set_option autoImplicit false

/-- `terms` are the fields that only the router reads. -/
structure UserTierOverride (Terms : Type) where
  overrideId : Option ℤ
  projectId : ℤ
  directiveId : Option String
  role : Option String
  terms : Terms
  revoked : Bool
  revokedBy : Option String
  revokedReason : Option String
  deriving DecidableEq

inductive Call (Terms : Type) where
  | setOverride (override : UserTierOverride Terms)
  | revokeOverride (overrideId projectId : ℤ) (revokedBy reason : String)

/-- A call that waits for its load, one that waits for its write, and one that has returned. What
is saved is computed before the write; `seen` records what the load met. -/
inductive Session (Terms : Type) where
  | loading (call : Call Terms)
  | saving (call : Call Terms) (rows seen : List (UserTierOverride Terms))
  | returned

/-- The rows of each project, and the overrides whose ids callers hold. -/
structure Store (Terms : Type) where
  projects : ℤ → List (UserTierOverride Terms)
  held : List (ℤ × UserTierOverride Terms)

section
variable {Terms : Type}

namespace Call

def project : Call Terms → ℤ
  | .setOverride override => override.projectId
  | .revokeOverride _ projectId _ _ => projectId

/-- The active rows that the call is about. -/
def names : Call Terms → UserTierOverride Terms → Bool
  | .setOverride override, o =>
    !o.revoked && (decide (o.directiveId = override.directiveId) && decide (o.role = override.role))
  | .revokeOverride overrideId _ _ _, o => decide (o.overrideId = some overrideId) && !o.revoked

end Call

/-- `max((o.override_id or 0 for o in rows), default=0) + 1`. -/
def nextId (rows : List (UserTierOverride Terms)) : ℤ :=
  match rows.map fun o => o.overrideId.getD 0 with
  | [] => 1
  | id :: ids => ids.foldl max id + 1

def UserTierOverride.withId (o : UserTierOverride Terms) (id : ℤ) : UserTierOverride Terms :=
  { o with overrideId := some id }

def UserTierOverride.revoke (revokedBy reason : String) (o : UserTierOverride Terms) :
    UserTierOverride Terms :=
  { o with revoked := true, revokedBy := some revokedBy, revokedReason := some reason }

/-- What a call saves, if it saves anything. -/
def Call.saves (call : Call Terms) (loaded : List (UserTierOverride Terms)) :
    Option (List (UserTierOverride Terms)) :=
  match call with
  | .setOverride override =>
    let rows := loaded.filter fun o => !call.names o
    some (rows ++ [override.withId (nextId rows)])
  | .revokeOverride _ _ revokedBy reason =>
    if loaded.any call.names then
      some (loaded.map fun o => if call.names o then o.revoke revokedBy reason else o)
    else none

/-- `_load`: a load that fails finds nothing. -/
def load (s : Store Terms) (projectId : ℤ) (ok : Bool) : List (UserTierOverride Terms) :=
  if ok then s.projects projectId else []

/-- `_save`: a write that fails changes nothing. -/
def save (s : Store Terms) (projectId : ℤ) (rows : List (UserTierOverride Terms)) (ok : Bool) :
    Store Terms :=
  if ok then { s with projects := Function.update s.projects projectId rows } else s

/-- After a call has returned, what the callers hold: a set replaces what it names, and what is
revoked is held no longer. -/
def Call.hold (call : Call Terms) (rows : List (UserTierOverride Terms)) (ok : Bool)
    (held : List (ℤ × UserTierOverride Terms)) : List (ℤ × UserTierOverride Terms) :=
  match call with
  | .setOverride override =>
    (held.filter fun h => !(decide (h.1 = override.projectId) && call.names h.2)) ++
      (rows.getLast?.map fun o => (override.projectId, o)).toList
  | .revokeOverride overrideId projectId _ _ =>
    if ok then
      held.filter fun h => !(decide (h.1 = projectId) && decide (h.2.overrideId = some overrideId))
    else held

/-- A call goes on with the answer it waited for. -/
def run (s : Store Terms) (session : Session Terms) (ok : Bool) : Store Terms × Session Terms :=
  match session with
  | .loading call =>
    match call.saves (load s call.project ok) with
    | some rows => (s, .saving call rows (s.projects call.project))
    | none => (s, .returned)
  | .saving call rows _ =>
    let saved := save s call.project rows ok
    ({ saved with held := call.hold rows ok saved.held }, .returned)
  | .returned => (s, .returned)

inductive Event (Terms : Type) where
  | call (call : Call Terms)
  | answer (i : ℕ) (ok : Bool)

def step (p : Pool (Store Terms) (Session Terms)) :
    Event Terms → Option (Pool (Store Terms) (Session Terms))
  | .call call => some (p.add (.loading call))
  | .answer i ok => p.advance run i ok

/-- Loads of a set fail only where there is nothing else to lose, its write does not, and nothing
else was written since the load. -/
def Careful (s : Store Terms) (session : Session Terms) (ok : Bool) : Prop :=
  match session with
  | .loading (.setOverride override) =>
    ok = true ∨ ∀ o ∈ s.projects override.projectId, (Call.setOverride override).names o = true
  | .saving (.setOverride override) _ seen => ok = true ∧ s.projects override.projectId = seen
  | .saving (.revokeOverride _ projectId _ _) _ seen => ok = true → s.projects projectId = seen
  | _ => True

/-! ## What a call keeps -/

theorem saves_set {override : UserTierOverride Terms} {loaded rows : List (UserTierOverride Terms)}
    (h : (Call.setOverride override).saves loaded = some rows) :
    ∃ id, rows = loaded.filter (fun o => !(Call.setOverride override).names o) ++
      [override.withId id] :=
  ⟨_, (Option.some.inj h).symm⟩

theorem saves_revoke {overrideId projectId : ℤ} {revokedBy reason : String}
    {loaded rows : List (UserTierOverride Terms)}
    (h : (Call.revokeOverride overrideId projectId revokedBy reason).saves loaded = some rows) :
    rows = loaded.map fun o =>
      if (Call.revokeOverride overrideId projectId revokedBy reason).names o then
        o.revoke revokedBy reason
      else o := by
  rw [Call.saves] at h
  split at h
  · exact (Option.some.inj h).symm
  · cases h

/-- What a call does to a row that it names. -/
def Call.Replaces (call : Call Terms) (o : UserTierOverride Terms)
    (rows : List (UserTierOverride Terms)) : Prop :=
  match call with
  | .setOverride _ => call.names o = true
  | .revokeOverride _ _ revokedBy reason =>
    call.names o = true ∧ o.revoke revokedBy reason ∈ rows

theorem Call.Replaces.names {call : Call Terms} {o : UserTierOverride Terms}
    {rows : List (UserTierOverride Terms)} (h : call.Replaces o rows) : call.names o = true := by
  cases call with
  | setOverride override => exact h
  | revokeOverride overrideId projectId revokedBy reason => exact h.1

theorem saves_keeps {call : Call Terms} {loaded rows : List (UserTierOverride Terms)}
    (h : call.saves loaded = some rows) {o : UserTierOverride Terms} (ho : o ∈ loaded) :
    o ∈ rows ∨ call.Replaces o rows := by
  cases hnames : call.names o with
  | false =>
    left
    cases call with
    | setOverride override =>
      obtain ⟨id, rfl⟩ := saves_set h
      exact List.mem_append_left _ (List.mem_filter.mpr ⟨ho, by rw [hnames]; rfl⟩)
    | revokeOverride overrideId projectId revokedBy reason =>
      rw [saves_revoke h]
      exact List.mem_map.mpr ⟨o, ho, by rw [hnames, if_neg Bool.false_ne_true]⟩
  | true =>
    right
    cases call with
    | setOverride override => exact hnames
    | revokeOverride overrideId projectId revokedBy reason =>
      refine ⟨hnames, ?_⟩
      rw [saves_revoke h]
      exact List.mem_map.mpr ⟨o, ho, by rw [hnames, if_pos rfl]⟩

/-- What a waiting call is going to write keeps what its load met. -/
def Session.Sound : Session Terms → Prop
  | .saving call rows seen =>
    (∀ o ∈ seen, o ∈ rows ∨ call.Replaces o rows) ∧
      ∀ override, call = .setOverride override → ∃ id, rows.getLast? = some (override.withId id)
  | _ => True

theorem loading_sound {s : Store Terms} {call : Call Terms} {ok : Bool}
    (h : Careful s (.loading call) ok) : (run s (.loading call) ok).2.Sound := by
  rw [run]
  cases hsaves : call.saves (load s call.project ok) with
  | none => trivial
  | some rows =>
    refine ⟨fun o ho => ?_, ?_⟩
    · cases ok with
      | true => exact saves_keeps hsaves ho
      | false =>
        cases call with
        | setOverride override =>
          exact Or.inr ((h.resolve_left Bool.false_ne_true) o ho)
        | revokeOverride overrideId projectId revokedBy reason =>
          -- Nothing was loaded, so nothing is found to revoke.
          simp [Call.saves, load] at hsaves
    · rintro override rfl
      obtain ⟨id, rfl⟩ := saves_set hsaves
      exact ⟨id, by simp⟩

theorem run_sound {s : Store Terms} {session : Session Terms} {ok : Bool}
    (h : Careful s session ok) : (run s session ok).2.Sound := by
  cases session with
  | loading call => exact loading_sound h
  | saving call rows seen => trivial
  | returned => trivial

theorem save_projects {s : Store Terms} {projectId : ℤ} {rows : List (UserTierOverride Terms)}
    (other : ℤ) :
    (save s projectId rows true).projects other =
      if other = projectId then rows else s.projects other := by
  rw [save, if_pos rfl]
  exact Function.update_apply s.projects projectId rows other

/-- A write that finds what the load met loses no row that the call does not name. -/
theorem saving_keeps {s : Store Terms} {call : Call Terms}
    {rows seen : List (UserTierOverride Terms)} {ok : Bool}
    (hsound : (Session.saving call rows seen).Sound)
    (hseen : ok = true → s.projects call.project = seen) {projectId : ℤ}
    {o : UserTierOverride Terms} (ho : o ∈ s.projects projectId) :
    o ∈ (run s (.saving call rows seen) ok).1.projects projectId ∨
      call.project = projectId ∧
        call.Replaces o ((run s (.saving call rows seen) ok).1.projects projectId) := by
  cases ok with
  | false => exact Or.inl ho
  | true =>
    rw [run]
    simp only [save_projects]
    by_cases hproject : projectId = call.project
    · subst hproject
      rw [if_pos rfl, and_iff_right rfl]
      exact hsound.1 o (hseen rfl ▸ ho)
    · rw [if_neg hproject]
      exact Or.inl ho

theorem careful_seen {s : Store Terms} {call : Call Terms}
    {rows seen : List (UserTierOverride Terms)} {ok : Bool}
    (h : Careful s (.saving call rows seen) ok) : ok = true → s.projects call.project = seen := by
  cases call with
  | setOverride override => exact fun _ => h.2
  | revokeOverride overrideId projectId revokedBy reason => exact h

/-- Every override that a caller holds is in the store. -/
def Kept (s : Store Terms) : Prop := ∀ h ∈ s.held, h.2 ∈ s.projects h.1

theorem run_kept {s : Store Terms} {session : Session Terms} {ok : Bool} (hkept : Kept s)
    (hsound : session.Sound) (h : Careful s session ok) : Kept (run s session ok).1 := by
  cases session with
  | returned => exact hkept
  | loading call =>
    rw [run]
    split <;> exact hkept
  | saving call rows seen =>
    intro entry hentry
    -- A held override that the call does not name stays where it is.
    have hstays (hheld : entry ∈ s.held)
        (hother : call.project = entry.1 → call.names entry.2 = false) :
        entry.2 ∈ (run s (.saving call rows seen) ok).1.projects entry.1 := by
      have hkeeps := saving_keeps hsound (careful_seen h) (hkept entry hheld)
      rcases hkeeps with hin | ⟨hproject, hreplaces⟩
      · exact hin
      · have hnames := hreplaces.names
        rw [hother hproject] at hnames
        exact absurd hnames Bool.false_ne_true
    cases call with
    | setOverride override =>
      obtain ⟨id, hlast⟩ := hsound.2 override rfl
      obtain ⟨rfl, _⟩ := h
      simp only [run, Call.hold, hlast, Option.map_some, Option.toList_some] at hentry
      rcases List.mem_append.mp hentry with hheld | hnew
      · obtain ⟨hheld, hother⟩ := List.mem_filter.mp hheld
        refine hstays hheld fun hproject => ?_
        have hsame : decide (entry.1 = override.projectId) = true := decide_eq_true hproject.symm
        rw [hsame, Bool.true_and] at hother
        simpa using hother
      · have hrows : (save s override.projectId rows true).projects override.projectId = rows := by
          rw [save_projects, if_pos rfl]
        rw [List.mem_singleton.mp hnew]
        show override.withId id ∈ (save s override.projectId rows true).projects override.projectId
        rw [hrows]
        exact List.mem_of_getLast? hlast
    | revokeOverride overrideId projectId revokedBy reason =>
      cases ok with
      | false => exact hkept entry hentry
      | true =>
        obtain ⟨hheld, hother⟩ := List.mem_filter.mp hentry
        refine hstays hheld fun hproject => ?_
        have hsame : decide (entry.1 = projectId) = true := decide_eq_true hproject.symm
        rw [hsame, Bool.true_and] at hother
        rw [Call.names]
        simp only [Bool.not_eq_true', decide_eq_false_iff_not] at hother
        rw [decide_eq_false hother, Bool.false_and]

/-! ## Ids -/

def DistinctIds (rows : List (UserTierOverride Terms)) : Prop :=
  (rows.map UserTierOverride.overrideId).Nodup

theorem le_foldl_max (ids : List ℤ) (id : ℤ) : id ≤ ids.foldl max id ∧
    ∀ other ∈ ids, other ≤ ids.foldl max id := by
  induction ids generalizing id with
  | nil => exact ⟨le_refl id, fun other h => absurd h List.not_mem_nil⟩
  | cons next ids ih =>
    obtain ⟨hle, hall⟩ := ih (max id next)
    refine ⟨(le_max_left id next).trans hle, fun other h => ?_⟩
    rcases List.mem_cons.mp h with rfl | h
    · exact (le_max_right id other).trans hle
    · exact hall other h

theorem nextId_fresh {rows : List (UserTierOverride Terms)} {o : UserTierOverride Terms}
    (ho : o ∈ rows) : o.overrideId ≠ some (nextId rows) := by
  intro heq
  have hmem : nextId rows ∈ rows.map fun o => o.overrideId.getD 0 :=
    List.mem_map.mpr ⟨o, ho, by rw [heq]; rfl⟩
  cases hids : rows.map fun o => o.overrideId.getD 0 with
  | nil =>
    rw [hids] at hmem
    exact absurd hmem List.not_mem_nil
  | cons id ids =>
    have hnext : nextId rows = ids.foldl max id + 1 := by rw [nextId, hids]
    obtain ⟨hle, hall⟩ := le_foldl_max ids id
    rw [hids, hnext] at hmem
    rcases List.mem_cons.mp hmem with hfirst | hrest
    · omega
    · have := hall _ hrest
      omega

theorem saves_distinct {call : Call Terms} {loaded rows : List (UserTierOverride Terms)}
    (h : call.saves loaded = some rows) (hdistinct : DistinctIds loaded) : DistinctIds rows := by
  cases call with
  | setOverride override =>
    rw [← Option.some.inj h, DistinctIds, List.map_append]
    have hkept : DistinctIds
        (loaded.filter fun o => !(Call.setOverride override).names o) :=
      hdistinct.sublist (List.filter_sublist.map _)
    refine List.nodup_append.mpr ⟨hkept, List.nodup_singleton _, fun id hid new hnew => ?_⟩
    obtain ⟨o, ho, rfl⟩ := List.mem_map.mp hid
    rw [List.mem_singleton.mp hnew]
    exact nextId_fresh ho
  | revokeOverride overrideId projectId revokedBy reason =>
    have hsame : rows.map UserTierOverride.overrideId = loaded.map UserTierOverride.overrideId := by
      rw [saves_revoke h, List.map_map]
      refine List.map_congr_left fun o _ => ?_
      rw [Function.comp_apply]
      split <;> rfl
    rw [DistinctIds, hsame]
    exact hdistinct

/-- The ids of every project's rows differ, and so do those about to be written. -/
def IdsDiffer (p : Pool (Store Terms) (Session Terms)) : Prop :=
  (∀ projectId, DistinctIds (p.store.projects projectId)) ∧
    ∀ call rows seen, Session.saving call rows seen ∈ p.sessions → DistinctIds rows

theorem run_ids {s : Store Terms} {session : Session Terms} {ok : Bool}
    (hstore : ∀ projectId, DistinctIds (s.projects projectId))
    (hsession : ∀ call rows seen, session = .saving call rows seen → DistinctIds rows) :
    (∀ projectId, DistinctIds ((run s session ok).1.projects projectId)) ∧
      ∀ call rows seen, (run s session ok).2 = .saving call rows seen → DistinctIds rows := by
  cases session with
  | returned => exact ⟨hstore, fun call rows seen h => by cases h⟩
  | loading call =>
    have hloaded : DistinctIds (load s call.project ok) := by
      rw [load]
      split
      · exact hstore _
      · exact List.nodup_nil
    rw [run]
    cases hsaves : call.saves (load s call.project ok) with
    | none => exact ⟨hstore, fun call rows seen h => by cases h⟩
    | some rows =>
      refine ⟨hstore, fun call' rows' seen' h => ?_⟩
      cases h
      exact saves_distinct hsaves hloaded
  | saving call rows seen =>
    refine ⟨fun projectId => ?_, fun call' rows' seen' h => by cases h⟩
    cases ok with
    | false => exact hstore projectId
    | true =>
      show DistinctIds ((save s call.project rows true).projects projectId)
      rw [save_projects]
      split
      · exact hsession call rows seen rfl
      · exact hstore projectId

/-! ## Runs -/

/-- A step in which the call that goes on is careful. -/
def CarefulStep (p : Pool (Store Terms) (Session Terms)) (e : Event Terms)
    (q : Pool (Store Terms) (Session Terms)) : Prop :=
  step p e = some q ∧ ∀ i ok session, e = .answer i ok → p.sessions[i]? = some session →
    Careful p.store session ok

/-- The rows a project starts with, before any call. -/
def start (projects : ℤ → List (UserTierOverride Terms)) : Pool (Store Terms) (Session Terms) :=
  ⟨⟨projects, []⟩, []⟩

theorem step_invariant {p q : Pool (Store Terms) (Session Terms)} {e : Event Terms}
    (hsound : ∀ session ∈ p.sessions, session.Sound) (hkept : Kept p.store)
    (h : CarefulStep p e q) : (∀ session ∈ q.sessions, session.Sound) ∧ Kept q.store := by
  obtain ⟨hstep, hcareful⟩ := h
  cases e with
  | call call =>
    obtain rfl : p.add (.loading call) = q := Option.some.inj hstep
    refine ⟨fun session hsession => ?_, hkept⟩
    rcases List.mem_append.mp hsession with hsession | hsession
    · exact hsound session hsession
    · rw [List.mem_singleton.mp hsession]
      trivial
  | answer i ok =>
    obtain ⟨pre, session, post, hget, hsessions, rfl⟩ := Pool.advance_split hstep
    have hsession := hcareful i ok session rfl hget
    have hmem : session ∈ p.sessions := List.mem_of_getElem? hget
    rw [hsessions] at hsound
    exact ⟨forall_mem_replace hsound (run_sound hsession),
      run_kept hkept (hsound session (hsessions ▸ hmem)) hsession⟩

theorem step_ids {p q : Pool (Store Terms) (Session Terms)} {e : Event Terms}
    (h : step p e = some q) (hids : IdsDiffer p) : IdsDiffer q := by
  cases e with
  | call call =>
    obtain rfl : p.add (.loading call) = q := Option.some.inj h
    refine ⟨hids.1, fun call' rows seen hmem => ?_⟩
    rcases List.mem_append.mp hmem with hmem | hmem
    · exact hids.2 call' rows seen hmem
    · cases List.mem_singleton.mp hmem
  | answer i ok =>
    obtain ⟨pre, session, post, hget, hsessions, rfl⟩ := Pool.advance_split h
    have hmem : session ∈ p.sessions := List.mem_of_getElem? hget
    obtain ⟨hstore, hnext⟩ :=
      run_ids hids.1 fun call rows seen heq => hids.2 call rows seen (heq ▸ hmem)
    refine ⟨hstore, fun call rows seen hmem => ?_⟩
    rcases List.mem_append.mp hmem with hpre | hrest
    · exact hids.2 call rows seen (hsessions ▸ List.mem_append_left _ hpre)
    · rcases List.mem_cons.mp hrest with heq | hpost
      · exact hnext call rows seen heq.symm
      · exact hids.2 call rows seen
          (hsessions ▸ List.mem_append_right _ (List.mem_cons_of_mem _ hpost))

/-- In careful runs every override whose id a caller holds is in the store, an id names one row of
its project, and a step only takes away what its call names: a set the active override of its
directive and role, and a revocation nothing, for it only marks. -/
theorem overrides_stay {projects : ℤ → List (UserTierOverride Terms)} {events : List (Event Terms)}
    {p : Pool (Store Terms) (Session Terms)} (h : Run CarefulStep (start projects) events p) :
    Kept p.store ∧
      ((∀ projectId, DistinctIds (projects projectId)) →
        ∀ projectId, DistinctIds (p.store.projects projectId)) ∧
      ∀ e q, CarefulStep p e q → ∀ projectId, ∀ o ∈ p.store.projects projectId,
        o ∈ q.store.projects projectId ∨
          ∃ i ok call rows seen, e = .answer i ok ∧
            p.sessions[i]? = some (.saving call rows seen) ∧ call.project = projectId ∧
              call.Replaces o (q.store.projects projectId) := by
  have hinv : (∀ session ∈ p.sessions, session.Sound) ∧ Kept p.store := by
    refine h.invariant (I := fun _ p => (∀ session ∈ p.sessions, session.Sound) ∧ Kept p.store)
      ⟨fun session hsession => ?_, fun entry hentry => ?_⟩ ?_
    · exact absurd hsession List.not_mem_nil
    · exact absurd hentry List.not_mem_nil
    · intro events p e q hinv hstep
      exact step_invariant hinv.1 hinv.2 hstep
  refine ⟨hinv.2, fun hdistinct => ?_, fun e q hstep projectId o ho => ?_⟩
  · have hids : IdsDiffer p := by
      refine h.invariant (I := fun _ p => IdsDiffer p)
        ⟨hdistinct, fun call rows seen hmem => absurd hmem List.not_mem_nil⟩ ?_
      intro events p e q hids hstep
      exact step_ids hstep.1 hids
    exact hids.1
  · obtain ⟨hstep, hcareful⟩ := hstep
    cases e with
    | call call =>
      obtain rfl : p.add (.loading call) = q := Option.some.inj hstep
      exact Or.inl ho
    | answer i ok =>
      obtain ⟨pre, session, post, hget, hsessions, rfl⟩ := Pool.advance_split hstep
      have hsession := hcareful i ok session rfl hget
      have hsound := hinv.1 session (List.mem_of_getElem? hget)
      cases session with
      | loading call =>
        left
        simp only [run]
        split <;> exact ho
      | returned => exact Or.inl ho
      | saving call rows seen =>
        rcases saving_keeps hsound (careful_seen hsession) ho with hin | ⟨hproject, hreplaces⟩
        · exact Or.inl hin
        · exact Or.inr ⟨i, ok, call, rows, seen, rfl, hget, hproject, hreplaces⟩

/-- An override of project 1 for a directive. -/
def overrideFor (directiveId : String) : UserTierOverride Unit :=
  ⟨none, 1, some directiveId, none, (), false, none, none⟩

theorem overrides_stay_one_set :
    ∃ p : Pool (Store Unit) (Session Unit),
      p.store.held = [(1, (overrideFor "d1").withId 1)] ∧ Kept p.store := by
  obtain ⟨p, hrun, hheld⟩ : ∃ p,
      Run CarefulStep (start fun _ => ([] : List (UserTierOverride Unit)))
        ([.call (.setOverride (overrideFor "d1"))] ++ [.answer 0 true] ++ [.answer 0 true]) p ∧
        p.store.held = [(1, (overrideFor "d1").withId 1)] := by
    refine ⟨_, ((Run.single ⟨rfl, ?called⟩).snoc ⟨rfl, ?loaded⟩).snoc ⟨rfl, ?saved⟩, rfl⟩
    case called =>
      intro i ok session heq
      cases heq
    case loaded =>
      intro i ok session heq hget
      cases heq
      cases hget
      exact Or.inl rfl
    case saved =>
      intro i ok session heq hget
      cases heq
      cases hget
      exact ⟨rfl, rfl⟩
  exact ⟨p, hheld, (overrides_stay hrun).1⟩

/-- A set whose load fails writes its own row alone, and the row of an earlier caller is gone. -/
theorem failed_load_drops_others :
    ∃ p : Pool (Store Unit) (Session Unit),
      Run (fun p e q => step p e = some q) (start fun _ => [])
          [.call (.setOverride (overrideFor "d1")), .answer 0 true, .answer 0 true,
            .call (.setOverride (overrideFor "d2")), .answer 1 false, .answer 1 true] p ∧
        (1, (overrideFor "d1").withId 1) ∈ p.store.held ∧
        (overrideFor "d1").withId 1 ∉ p.store.projects 1 := by
  refine ⟨_, Run.of_foldlM (fun h => h) rfl, ?_, ?_⟩
  · decide
  · decide

end

end SpineFormal.Cost.UserOverride
