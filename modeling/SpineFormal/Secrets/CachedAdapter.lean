import Mathlib.Data.List.Induction
import Mathlib.Data.List.Infix
import Mathlib.Data.Rat.Defs
import Mathlib.Logic.Function.Basic
import SpineFormal.Base.Interleaving

/-!
# The secrets cache

`CachedAdapter` of `shared/secrets/cache.py` around a backend that others may write too.
A call runs up to its next await: the lock of the cache, or the backend. The backend answers
or writes at one moment of that wait; what the call does with the answer comes later.
-/

namespace SpineFormal.Secrets

set_option autoImplicit false

structure Entry where
  value : String
  expiresAt : ℚ

/-- What the calls share. -/
structure Shared where
  backend : String → Option String
  entries : String → Option Entry

/-- A call at an await, or what it came to. A path `none` is the whole cache. -/
inductive Call where
  | lookup (path : String) (ttl : Option ℚ) (now : ℚ)
  | fetch (path : String) (expires : ℚ)
  | store (path value : String) (expires : ℚ)
  | put (path value : String)
  | delete (path : String)
  | drop (path : Option String)
  | returned (path value : String)
  | dropped (path : Option String)
  | raised
  deriving DecidableEq

inductive Request where
  | get (path : String) (ttl : Option ℚ)
  | put (path value : String)
  | delete (path : String)
  | invalidate (path : Option String)
  deriving DecidableEq

def Request.begin (now : ℚ) : Request → Call
  | .get path ttl => .lookup path ttl now
  | .put path value => .put path value
  | .delete path => .delete path
  | .invalidate path => .drop path

def Shared.dropEntries (s : Shared) : Option String → Shared
  | none => { s with entries := fun _ => none }
  | some path => { s with entries := Function.update s.entries path none }

/-- A call runs to its next await; `ok` says whether the backend answers it. -/
def run (defaultTtl : ℚ) (s : Shared) : Call → Bool → Shared × Call
  | .lookup path ttl now, _ =>
    match s.entries path with
    | some entry =>
      if now < entry.expiresAt then (s, .returned path entry.value)
      else (s, .fetch path (now + ttl.getD defaultTtl))
    | none => (s, .fetch path (now + ttl.getD defaultTtl))
  | .fetch path expires, ok =>
    match s.backend path with
    | some value => if ok then (s, .store path value expires) else (s, .raised)
    | none => (s, .raised)
  | .store path value expires, _ =>
    ({ s with entries := Function.update s.entries path (some ⟨value, expires⟩) },
      .returned path value)
  | .put path value, ok =>
    if ok then
      ({ s with backend := Function.update s.backend path (some value) }, .drop (some path))
    else (s, .raised)
  | .delete path, ok =>
    if ok then ({ s with backend := Function.update s.backend path none }, .drop (some path))
    else (s, .raised)
  | .drop path, _ => (s.dropEntries path, .dropped path)
  | call, _ => (s, call)

/-- What a run of a call to its next await can do. -/
inductive Ran (defaultTtl : ℚ) (s : Shared) : Call → Shared × Call → Prop where
  | hit {path : String} {ttl : Option ℚ} {now : ℚ} {entry : Entry}
      (hentry : s.entries path = some entry) :
      Ran defaultTtl s (.lookup path ttl now) (s, .returned path entry.value)
  | miss {path : String} {ttl : Option ℚ} {now : ℚ} :
      Ran defaultTtl s (.lookup path ttl now) (s, .fetch path (now + ttl.getD defaultTtl))
  | read {path value : String} {expires : ℚ} (hread : s.backend path = some value) :
      Ran defaultTtl s (.fetch path expires) (s, .store path value expires)
  | write {path value : String} {expires : ℚ} :
      Ran defaultTtl s (.store path value expires)
        ({ s with entries := Function.update s.entries path (some ⟨value, expires⟩) },
          .returned path value)
  | change {call : Call} {path : String} {value : Option String} :
      Ran defaultTtl s call
        ({ s with backend := Function.update s.backend path value }, .drop (some path))
  | drop {path : Option String} :
      Ran defaultTtl s (.drop path) (s.dropEntries path, .dropped path)
  | raised {call : Call} : Ran defaultTtl s call (s, .raised)
  | stays {call : Call} : Ran defaultTtl s call (s, call)

theorem ran_run (defaultTtl : ℚ) (s : Shared) (call : Call) (ok : Bool) :
    Ran defaultTtl s call (run defaultTtl s call ok) := by
  cases call with
  | lookup path ttl now =>
    rw [run]
    split
    · split
      · exact .hit ‹_›
      · exact .miss
    · exact .miss
  | fetch path expires =>
    rw [run]
    split
    · split
      · exact .read ‹_›
      · exact .raised
    · exact .raised
  | store path value expires => exact .write
  | put path value =>
    rw [run]
    split
    · exact .change
    · exact .raised
  | delete path =>
    rw [run]
    split
    · exact .change
    · exact .raised
  | drop path => exact .drop
  | returned path value => exact .stays
  | dropped path => exact .stays
  | raised => exact .stays

/-- A call starts, the `i`-th call runs on, or someone else writes to the backend. -/
inductive Event where
  | start (request : Request) (now : ℚ)
  | resume (i : Nat) (ok : Bool)
  | other (path : String) (value : Option String)
  deriving DecidableEq

abbrev Adapter := Pool Shared Call

def step (defaultTtl : ℚ) (p : Adapter) : Event → Adapter
  | .start request now => p.add (request.begin now)
  | .resume i ok => (p.advance (run defaultTtl) i ok).getD p
  | .other path value =>
    ⟨{ p.store with backend := Function.update p.store.backend path value }, p.sessions⟩

/-- A new cache around a backend, after a sequence of events. -/
def after (defaultTtl : ℚ) (backend : String → Option String) (events : List Event) : Adapter :=
  events.foldl (step defaultTtl) ⟨⟨backend, fun _ => none⟩, []⟩

/-! ## Freshness -/

section
variable (d : ℚ) (b : String → Option String)

def callAt (events : List Event) (i : Nat) : Option Call := (after d b events).sessions[i]?

def backendAt (events : List Event) : String → Option String := (after d b events).store.backend

def entriesAt (events : List Event) : String → Option Entry := (after d b events).store.entries

/-- Call `o` has only to drop `path`: a `put` or `delete` has reached the backend. -/
def Dropping (events : List Event) (o : Nat) (path : String) : Prop :=
  callAt d b events o = some (.drop (some path)) ∨ callAt d b events o = some (.drop none)

/-- Call `o`, a `put`, `delete` or `invalidate` of `path`, is complete. -/
def Dropped (events : List Event) (o : Nat) (path : String) : Prop :=
  callAt d b events o = some (.dropped (some path)) ∨ callAt d b events o = some (.dropped none)

/-- The last of the events is the one with which call `o` takes effect. -/
def TakesEffect (events : List Event) (o : Nat) (path : String) : Prop :=
  Dropping d b events o path ∧ ¬ Dropping d b events.dropLast o path

/-- The backend holds the value at some moment from `start` to `events`. -/
def HeldSince (start events : List Event) (path value : String) : Prop :=
  ∃ mid, start <+: mid ∧ mid <+: events ∧ backendAt d b mid path = some value

/-- What a `get` that started after a complete `put`, `delete` or `invalidate` returns, the
backend held since that operation. -/
def Fresh (events : List Event) : Prop :=
  ∀ path value o g effect complete, TakesEffect d b effect o path → effect <+: complete →
    complete <+: events → Dropped d b complete o path → callAt d b complete g = none →
    callAt d b events g = some (.returned path value) → HeldSince d b effect events path value

/-- Call `g` has read the backend and not yet written to the cache. -/
def Fetched (events : List Event) (g : Nat) : Prop :=
  ∃ path value expires, callAt d b events g = some (.store path value expires)

instance (events : List Event) (g : Nat) : Decidable (Fetched d b events g) :=
  match h : callAt d b events g with
  | some (.store path value expires) => isTrue ⟨path, value, expires, h⟩
  | some (.lookup ..) | some (.fetch ..) | some (.put ..) | some (.delete _) | some (.drop _)
  | some (.returned ..) | some (.dropped _) | some .raised | none =>
    isFalse fun ⟨_, _, _, hstore⟩ => by cases h.symm.trans hstore

/-- A `get` that runs on and writes what it read to the cache had not read it when an operation
on the path took effect that is complete by now. -/
def Timely (events : List Event) (e : Event) : Prop :=
  ∀ g ok path value expires, e = .resume g ok →
    callAt d b events g = some (.store path value expires) →
    ∀ o effect, TakesEffect d b effect o path → effect <+: events → Dropped d b events o path →
      ¬ Fetched d b effect g

theorem after_snoc (events : List Event) (e : Event) :
    after d b (events ++ [e]) = step d (after d b events) e := by
  rw [after, List.foldl_append, ← after, List.foldl_cons, List.foldl_nil]

variable {d b} {events : List Event} {e : Event} {g : Nat} {path : String}

/-- Where a call stands after a step. -/
theorem callAt_snoc {call : Call} (h : callAt d b (events ++ [e]) g = some call) :
    callAt d b events g = some call ∨ (∃ request now, call = Request.begin now request) ∨
      ∃ ok old, e = .resume g ok ∧ callAt d b events g = some old ∧
        Ran d (after d b events).store old ((after d b (events ++ [e])).store, call) := by
  rw [callAt, after_snoc] at h
  cases e with
  | start request now =>
    rw [step, Pool.add, List.getElem?_append] at h
    split at h
    · exact .inl h
    · obtain rfl := List.mem_singleton.mp (List.mem_of_getElem? h)
      exact .inr (.inl ⟨request, now, rfl⟩)
  | other path value => exact .inl h
  | resume i ok =>
    rw [after_snoc, step] at *
    cases hadvance : (after d b events).advance (run d) i ok with
    | none =>
      rw [hadvance] at h
      exact .inl h
    | some p =>
      obtain ⟨old, hold, rfl⟩ := Pool.advance_eq_some hadvance
      rw [hadvance, Option.getD_some] at h
      by_cases hi : i = g
      · subst hi
        rw [List.getElem?_set_self (List.getElem?_eq_some_iff.mp hold).1] at h
        refine .inr (.inr ⟨ok, old, rfl, hold, ?_⟩)
        rw [Option.getD_some, ← Option.some.inj h]
        exact ran_run d _ old ok
      · rw [List.getElem?_set_ne hi] at h
        exact .inl h

theorem after_resume {old : Call} (h : callAt d b events g = some old) (ok : Bool) :
    (after d b (events ++ [.resume g ok])).store = (run d (after d b events).store old ok).1 := by
  rw [after_snoc, step, Pool.advance, ← callAt, h]
  rfl

/-- An entry is old, or a `get` wrote it in this step. -/
theorem entriesAt_snoc {entry : Entry} (h : entriesAt d b (events ++ [e]) path = some entry) :
    entriesAt d b events path = some entry ∨
      ∃ g ok, e = .resume g ok ∧
        callAt d b events g = some (.store path entry.value entry.expiresAt) := by
  cases e with
  | start request now =>
    rw [entriesAt, after_snoc] at h
    exact .inl h
  | other path' value =>
    rw [entriesAt, after_snoc] at h
    exact .inl h
  | resume g ok =>
    cases hg : callAt d b events g with
    | none =>
      rw [entriesAt, after_snoc, step, Pool.advance, ← callAt, hg] at h
      exact .inl h
    | some old =>
      rw [entriesAt, after_resume hg] at h
      have hran := ran_run d (after d b events).store old ok
      generalize run d (after d b events).store old ok = result at h hran
      cases hran with
      | hit hentry => exact .inl h
      | miss => exact .inl h
      | read hread => exact .inl h
      | change => exact .inl h
      | raised => exact .inl h
      | stays => exact .inl h
      | @write path' value expires =>
        by_cases hpath : path' = path
        · subst hpath
          obtain rfl : ⟨value, expires⟩ = entry := by simpa using h
          exact .inr ⟨g, ok, rfl, hg⟩
        · exact .inl ((Function.update_of_ne (Ne.symm hpath) _ _).symm.trans h)
      | @drop path' =>
        cases path' with
        | none => cases h
        | some path' =>
          by_cases hpath : path' = path
          · simp [Shared.dropEntries, hpath] at h
          · exact .inl ((Function.update_of_ne (Ne.symm hpath) _ _).symm.trans h)

theorem entriesAt_dropping {o : Nat} (h : Dropping d b events o path) (ok : Bool) :
    entriesAt d b (events ++ [.resume o ok]) path = none := by
  rcases h with h | h
  · rw [entriesAt, after_resume h]
    simp [run, Shared.dropEntries]
  · rw [entriesAt, after_resume h]
    rfl

/-- An operation that is complete was so before the step, or only had to drop its path. -/
theorem Dropped.snoc {o : Nat} (h : Dropped d b (events ++ [e]) o path) :
    Dropped d b events o path ∨ ∃ ok, e = .resume o ok ∧ Dropping d b events o path := by
  have hcase : ∀ q, callAt d b (events ++ [e]) o = some (.dropped q) →
      callAt d b events o = some (.dropped q) ∨
        ∃ ok, e = .resume o ok ∧ callAt d b events o = some (.drop q) := by
    intro q hq
    rcases callAt_snoc hq with hold | ⟨request, now, hbegin⟩ | ⟨ok, old, he, hold, hran⟩
    · exact .inl hold
    · cases request <;> cases hbegin
    · generalize (after d b (events ++ [e])).store = s at hran
      cases hran with
      | drop => exact .inr ⟨ok, he, hold⟩
      | stays => exact .inl hold
  rcases h with h | h
  · rcases hcase _ h with h | ⟨ok, he, h⟩
    · exact .inl (.inl h)
    · exact .inr ⟨ok, he, .inl h⟩
  · rcases hcase _ h with h | ⟨ok, he, h⟩
    · exact .inl (.inr h)
    · exact .inr ⟨ok, he, .inr h⟩

theorem HeldSince.snoc {start : List Event} {value : String}
    (h : HeldSince d b start events path value) : HeldSince d b start (events ++ [e]) path value := by
  obtain ⟨mid, hstart, hmid, hheld⟩ := h
  exact ⟨mid, hstart, hmid.trans (List.prefix_append events [e]), hheld⟩

theorem HeldSince.now {start : List Event} {value : String} (hstart : start <+: events)
    (h : backendAt d b events path = some value) : HeldSince d b start events path value :=
  ⟨events, hstart, List.prefix_refl events, h⟩

/-- A call that has read a value since `start`. -/
theorem heldSince_of_fetched {start : List Event} {value : String} {expires : ℚ}
    (hstart : start <+: events) (hbefore : ¬ Fetched d b start g)
    (h : callAt d b events g = some (.store path value expires)) :
    HeldSince d b start events path value := by
  induction events using List.reverseRecOn with
  | nil =>
    obtain rfl := List.prefix_nil.mp hstart
    exact absurd ⟨path, value, expires, h⟩ hbefore
  | append_singleton events e ih =>
    rcases List.prefix_concat_iff.mp hstart with rfl | hstart
    · exact absurd ⟨path, value, expires, h⟩ hbefore
    · refine HeldSince.snoc ?_
      rcases callAt_snoc h with hold | ⟨request, now, hbegin⟩ | ⟨ok, old, he, hold, hran⟩
      · exact ih hstart hold
      · cases request <;> cases hbegin
      · generalize (after d b (events ++ [e])).store = s at hran
        cases hran with
        | read hread => exact .now hstart hread
        | stays => exact ih hstart hold

/-- What carries freshness along a run: the entries of the cache, and the values that calls
hold which started after the operation. -/
structure FreshRun (d : ℚ) (b : String → Option String) (events : List Event) : Prop where
  entries : ∀ path entry, entriesAt d b events path = some entry →
    ∀ o effect, TakesEffect d b effect o path → effect <+: events → Dropped d b events o path →
      HeldSince d b effect events path entry.value
  gets : ∀ path value o g effect complete, TakesEffect d b effect o path → effect <+: complete →
    complete <+: events → Dropped d b complete o path → callAt d b complete g = none →
    (callAt d b events g = some (.returned path value) ∨
      ∃ expires, callAt d b events g = some (.store path value expires)) →
    HeldSince d b effect events path value

/-- A call that is complete stays so. -/
theorem callAt_dropped_snoc {o : Nat} {q : Option String}
    (h : callAt d b events o = some (.dropped q)) (e : Event) :
    callAt d b (events ++ [e]) o = some (.dropped q) := by
  rw [callAt, after_snoc]
  cases e with
  | start request now =>
    rw [step, Pool.add, List.getElem?_append_left (List.getElem?_eq_some_iff.mp h).1]
    exact h
  | other path value => exact h
  | resume i ok =>
    rw [step]
    cases hadvance : (after d b events).advance (run d) i ok with
    | none => exact h
    | some p =>
      obtain ⟨old, hold, rfl⟩ := Pool.advance_eq_some hadvance
      rw [Option.getD_some]
      by_cases hi : i = o
      · subst hi
        obtain rfl : old = .dropped q := Option.some.inj (hold.symm.trans h)
        rw [List.getElem?_set_self (List.getElem?_eq_some_iff.mp hold).1]
        rfl
      · rw [List.getElem?_set_ne hi]
        exact h

theorem Dropped.mono {complete : List Event} {o : Nat} (h : Dropped d b complete o path)
    (hle : complete <+: events) : Dropped d b events o path := by
  induction events using List.reverseRecOn with
  | nil => rwa [List.prefix_nil.mp hle] at h
  | append_singleton events e ih =>
    rcases List.prefix_concat_iff.mp hle with rfl | hle
    · exact h
    · exact (ih hle).imp (fun h => callAt_dropped_snoc h e) fun h => callAt_dropped_snoc h e

theorem Dropped.not_dropping {o : Nat} (h : Dropped d b events o path) :
    ¬ Dropping d b events o path := by
  rcases h with h | h <;> rintro (h' | h') <;> cases h.symm.trans h'

theorem FreshRun.nil : FreshRun d b [] where
  entries path entry h := by cases h
  gets path value o g effect complete _ _ _ _ _ h := by
    rcases h with h | ⟨expires, h⟩ <;> cases h

theorem FreshRun.snoc (h : FreshRun d b events) (htimely : Timely d b events e) :
    FreshRun d b (events ++ [e]) where
  entries path entry hentry o effect heffect hle hdropped := by
    have hle' : effect <+: events := by
      rcases List.prefix_concat_iff.mp hle with rfl | hle
      · exact absurd heffect.1 hdropped.not_dropping
      · exact hle
    refine HeldSince.snoc ?_
    rcases hdropped.snoc with hdone | ⟨ok, rfl, hdropping⟩
    · rcases entriesAt_snoc hentry with hentry | ⟨g, ok, rfl, hg⟩
      · exact h.entries path entry hentry o effect heffect hle' hdone
      · exact heldSince_of_fetched hle'
          (htimely g ok path _ _ rfl hg o effect heffect hle' hdone) hg
    · rw [entriesAt_dropping hdropping] at hentry
      cases hentry
  gets path value o g effect complete heffect hle hcomplete hdropped hnone hg := by
    have hcomplete' : complete <+: events := by
      rcases List.prefix_concat_iff.mp hcomplete with rfl | hcomplete
      · rcases hg with hg | ⟨expires, hg⟩ <;> cases hnone.symm.trans hg
      · exact hcomplete
    have hold := h.gets path value o g effect complete heffect hle hcomplete' hdropped hnone
    refine HeldSince.snoc ?_
    rcases hg with hg | ⟨expires, hg⟩
    · rcases callAt_snoc hg with hg | ⟨request, now, hbegin⟩ | ⟨ok, old, he, hg, hran⟩
      · exact hold (.inl hg)
      · cases request <;> cases hbegin
      · generalize (after d b (events ++ [e])).store = s at hran
        cases hran with
        | hit hentry =>
          exact h.entries path _ hentry o effect heffect (hle.trans hcomplete')
            (hdropped.mono hcomplete')
        | write => exact hold (.inr ⟨_, hg⟩)
        | stays => exact hold (.inl hg)
    · rcases callAt_snoc hg with hg | ⟨request, now, hbegin⟩ | ⟨ok, old, he, hg, hran⟩
      · exact hold (.inr ⟨expires, hg⟩)
      · cases request <;> cases hbegin
      · generalize (after d b (events ++ [e])).store = s at hran
        cases hran with
        | read hread => exact .now (hle.trans hcomplete') hread
        | stays => exact hold (.inr ⟨expires, hg⟩)

/-- When every `get` is in time, what a `get` returns the backend held since every operation
that was complete before it. -/
theorem fresh_of_timely (h : ∀ pre e, pre ++ [e] <+: events → Timely d b pre e)
    {pre : List Event} (hpre : pre <+: events) : Fresh d b pre := by
  have hrun : FreshRun d b pre := by
    induction pre using List.reverseRecOn with
    | nil => exact .nil
    | append_singleton pre e ih =>
      exact (ih ((List.prefix_append pre [e]).trans hpre)).snoc (h pre e hpre)
  intro path value o g effect complete heffect hle hcomplete hdropped hnone hg
  exact hrun.gets path value o g effect complete heffect hle hcomplete hdropped hnone (.inl hg)

end

/-! ## The race -/

/-- A `get` of `k` that has read the old value when a `put` of `k` starts, and a second one. -/
def race : List Event :=
  [.start (.get "k" none) 0, .resume 0 true, .resume 0 true,
    .start (.put "k" "new") 1, .resume 1 true, .resume 1 true,
    .resume 0 true, .start (.get "k" none) 2, .resume 2 true]

theorem race_is_not_fresh : ¬ Fresh 60 (fun _ => some "old") race := by
  intro h
  have heffect : TakesEffect 60 (fun _ => some "old") (race.take 5) 1 "k" := by
    refine ⟨.inl (by decide), ?_⟩
    rintro (h | h) <;> revert h <;> decide
  obtain ⟨mid, hle, hmid, hheld⟩ := h "k" "old" 1 2 (race.take 5) (race.take 6) heffect
    (by decide) (by decide) (.inl (by decide)) (by decide) (by decide +kernel)
  have hnew : ∀ mid ∈ race.inits, race.take 5 <+: mid →
      backendAt 60 (fun _ => some "old") mid "k" = some "new" := by decide +kernel
  rw [hnew mid (by simpa using hmid) hle] at hheld
  revert hheld
  decide

/-- The same calls, where the first `get` ends before the `put`. -/
def inTime : List Event :=
  [.start (.get "k" none) 0, .resume 0 true, .resume 0 true, .resume 0 true,
    .start (.put "k" "new") 1, .resume 1 true, .resume 1 true,
    .start (.get "k" none) 2, .resume 2 true, .resume 2 true, .resume 2 true]

theorem fresh_of_timely_inTime : Fresh 60 (fun _ => some "old") inTime := by
  refine fresh_of_timely (show ∀ pre e, pre ++ [e] <+: inTime →
    Timely 60 (fun _ => some "old") pre e from ?_) (List.prefix_refl _)
  have hcalls : ∀ pre ∈ inTime.inits, (after 60 (fun _ => some "old") pre).sessions.length ≤ 3 := by
    decide +kernel
  have hatonce : ∀ pre ∈ inTime.inits, ∀ effect ∈ pre.inits, ∀ g < 3,
      Fetched 60 (fun _ => some "old") pre g → Fetched 60 (fun _ => some "old") effect g →
      effect = pre := by
    decide +kernel
  intro pre e hpre g ok path value expires _ hg o effect heffect hle hdropped hfetched
  have hmem : pre ∈ inTime.inits := by simpa using (List.prefix_append pre [e]).trans hpre
  have hlt : g < 3 := (List.getElem?_eq_some_iff.mp hg).1.trans_le (hcalls pre hmem)
  obtain rfl := hatonce pre hmem effect (by simpa using hle) g hlt ⟨path, value, expires, hg⟩ hfetched
  exact hdropped.not_dropping heffect.1

end SpineFormal.Secrets
