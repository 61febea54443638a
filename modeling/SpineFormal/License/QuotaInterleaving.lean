import SpineFormal.License.QuotaLedger

/-!
# Interleaved increments

Any number of `record_usage` calls on one (flag, period), interleaved statement
by statement. `conn` is used without a transaction, so each statement commits by
itself: the `FOR UPDATE` lock is gone before the call's own write, and nothing
keeps two calls that both found no row from inserting one each.

Each step runs one statement of one call. The tally is right in every state of
a run as long as no write rests on an outdated read.
-/

namespace SpineFormal.License

set_option autoImplicit false

/-- Where a call stands between its statements. -/
inductive Stage where
  | called
  /-- The first `SELECT` returned this row. -/
  | merging (existing : UsageRow)
  /-- The first `SELECT` returned nothing. -/
  | opening
  /-- The second `SELECT` returned this anchor, if any. -/
  | chaining (previous : Option Bytes)
  | returned (reply : UsageReply)
  | raised (error : UsageError)

/-- The next statement of `record_usage` on an accepted window, with the Python around it. -/
def runStatement (w : Window) (increment : Int) (t : QuotaTable) : Stage → QuotaTable × Stage
  | .called =>
    match selectExisting t w.key with
    | some r => (t, .merging r)
    | none => (t, .opening)
  | .merging r =>
    let used := r.usedValue + increment
    let a := w.key.anchor (anchorHex r.ledgerAnchor) used
    if fitsBigint used then (updateUsage t w.key used a, .returned (w.reply used a false))
    else (t, .raised .bigintOverflow)
  | .opening =>
    (t, .chaining ((selectPrevious t w.key.flagName w.key.periodStart).bind UsageRow.ledgerAnchor))
  | .chaining prev =>
    let a := w.key.anchor (anchorHex prev) increment
    if fitsBigint increment then
      (insertUsage t w.key increment a, .returned (w.reply increment a true))
    else (t, .raised .bigintOverflow)
  | .returned reply => (t, .returned reply)
  | .raised e => (t, .raised e)

/-- A call that is alone on the table is `recordUsage`: three statements finish it. -/
theorem runStatement_alone {c : UsageCall} {w : Window} (hw : checkCall c = .ok w) (t : QuotaTable) :
    let p := runStatement w c.increment t .called
    let q := runStatement w c.increment p.1 p.2
    (runStatement w c.increment q.1 q.2).1 = afterCall t c := by
  cases h : selectExisting t w.key with
  | some r =>
    by_cases hfit : fitsBigint (r.usedValue + c.increment)
    · simp [runStatement, afterCall, recordUsage, hw, h, hfit]
    · simp [runStatement, afterCall, recordUsage, hw, h, hfit]
  | none =>
    by_cases hfit : fitsBigint c.increment
    · simp [runStatement, afterCall, recordUsage, hw, h, hfit]
    · simp [runStatement, afterCall, recordUsage, hw, h, hfit]

structure Session where
  call : UsageCall
  stage : Stage

/-- A call that does not pass its checks raises before its first statement. -/
def advance (t : QuotaTable) (s : Session) : QuotaTable × Session :=
  match checkCall s.call with
  | .error e =>
    match s.stage with
    | .called => (t, ⟨s.call, .raised e⟩)
    | stage => (t, ⟨s.call, stage⟩)
  | .ok w => ((runStatement w s.call.increment t s.stage).1,
      ⟨s.call, (runStatement w s.call.increment t s.stage).2⟩)

structure Ledger where
  table : QuotaTable
  sessions : List Session

/-- All calls about to start on a table. -/
def Ledger.start (t : QuotaTable) (calls : List UsageCall) : Ledger :=
  ⟨t, calls.map fun c => ⟨c, .called⟩⟩

/-- The `i`-th call runs its next statement. -/
def Ledger.step (l : Ledger) (i : Nat) : Option Ledger :=
  l.sessions[i]?.map fun s => ⟨(advance l.table s).1, l.sessions.set i (advance l.table s).2⟩

theorem Ledger.step_split {l l' : Ledger} {i : Nat} (h : l.step i = some l') :
    ∃ pre s post, l.sessions[i]? = some s ∧ l.sessions = pre ++ s :: post ∧
      l' = ⟨(advance l.table s).1, pre ++ (advance l.table s).2 :: post⟩ := by
  obtain ⟨s, hs, rfl⟩ := Option.map_eq_some_iff.mp h
  obtain ⟨hi, hget⟩ := List.getElem?_eq_some_iff.mp hs
  refine ⟨l.sessions.take i, s, l.sessions.drop (i + 1), hs, ?_, ?_⟩
  · rw [← hget, List.getElem_cons_drop, List.take_append_drop]
  · rw [List.set_eq_take_append_cons_drop, if_pos hi]

/-! ## The tally -/

def Session.returnedIncrement (s : Session) : Option Int :=
  match s.stage with
  | .returned _ => some s.call.increment
  | _ => none

/-- Increments of the calls that returned successfully. -/
def Ledger.returnedIncrements (l : Ledger) : List Int := l.sessions.filterMap Session.returnedIncrement

def rowsAt (t : QuotaTable) (k : PeriodKey) : List UsageRow := t.filter fun r => decide (r.key = k)

/-- The values the period should hold: none before the first return, then one, the sum. -/
def tally : List Int → List Int
  | [] => []
  | i :: is => [(i :: is).sum]

/-- No increment is lost or counted twice. -/
def Tallied (k : PeriodKey) (l : Ledger) : Prop :=
  (rowsAt l.table k).map UsageRow.usedValue = tally l.returnedIncrements

/-- A write that takes effect rests on a read that a new `SELECT` would repeat. -/
def FreshStage (w : Window) (increment : Int) (t : QuotaTable) : Stage → Prop
  | .merging r => fitsBigint (r.usedValue + increment) →
      (selectExisting t w.key).map UsageRow.usedValue = some r.usedValue
  | .chaining _ => fitsBigint increment → selectExisting t w.key = none
  | _ => True

instance (w : Window) (increment : Int) (t : QuotaTable) (stage : Stage) :
    Decidable (FreshStage w increment t stage) := by
  cases stage <;> unfold FreshStage <;> infer_instance

def Fresh (t : QuotaTable) (s : Session) : Prop :=
  match checkCall s.call with
  | .error _ => True
  | .ok w => FreshStage w s.call.increment t s.stage

instance (t : QuotaTable) (s : Session) : Decidable (Fresh t s) := by
  unfold Fresh
  split <;> infer_instance

/-- The call that runs next, if it writes, has an up-to-date read. -/
def FreshStep (l : Ledger) (i : Nat) : Prop := ∀ s ∈ l.sessions[i]?, Fresh l.table s

instance (l : Ledger) (i : Nat) : Decidable (FreshStep l i) :=
  inferInstanceAs (Decidable (∀ s ∈ l.sessions[i]?, Fresh l.table s))

theorem selectExisting_eq_head (t : QuotaTable) (k : PeriodKey) :
    selectExisting t k = (rowsAt t k).head? := by
  rw [selectExisting, rowsAt, List.head?_filter]

theorem rowsAt_updateUsage (t : QuotaTable) (k : PeriodKey) (used : Int) (a : Bytes) :
    (rowsAt (updateUsage t k used a) k).map UsageRow.usedValue =
      (rowsAt t k).map fun _ => used := by
  induction t with
  | nil => rfl
  | cons r t ih =>
    by_cases hr : r.key = k
    · have hkey : UsageRow.key { r with usedValue := used, ledgerAnchor := some a } = k := hr
      simpa [rowsAt, updateUsage, hr, hkey] using ih
    · simpa [rowsAt, updateUsage, hr] using ih

theorem rowsAt_insertUsage (t : QuotaTable) (k : PeriodKey) (used : Int) (a : Bytes) :
    (rowsAt (insertUsage t k used a) k).map UsageRow.usedValue =
      (rowsAt t k).map UsageRow.usedValue ++ [used] := by
  simp [rowsAt, insertUsage, UsageRow.key]

theorem tally_insert (is js : List Int) (i : Int) :
    tally (is ++ i :: js) = [(is ++ js).sum + i] := by
  have hsum : (is ++ i :: js).sum = (is ++ js).sum + i := by
    simp only [List.sum_append, List.sum_cons]
    omega
  cases is with
  | nil => simpa [tally] using hsum
  | cons a is => simpa [tally] using hsum

theorem tally_eq_singleton {is : List Int} {u : Int} (h : (tally is).head? = some u) :
    tally is = [u] ∧ is.sum = u := by
  cases is with
  | nil => simp [tally] at h
  | cons i is =>
    obtain rfl : (i :: is).sum = u := by simpa [tally] using h
    exact ⟨rfl, rfl⟩

theorem tally_eq_nil {is : List Int} (h : tally is = []) : is = [] := by
  cases is with
  | nil => rfl
  | cons i is => simp [tally] at h

/-- A fresh update moves the sum by exactly the call's increment. -/
theorem tallied_update {t : QuotaTable} {k : PeriodKey} {is js : List Int} {seen increment : Int}
    (h : (rowsAt t k).map UsageRow.usedValue = tally (is ++ js))
    (hseen : (selectExisting t k).map UsageRow.usedValue = some seen) (a : Bytes) :
    (rowsAt (updateUsage t k (seen + increment) a) k).map UsageRow.usedValue =
      tally (is ++ increment :: js) := by
  have hhead : (tally (is ++ js)).head? = some seen := by
    rw [← h, List.head?_map, ← selectExisting_eq_head, hseen]
  obtain ⟨hone, hsum⟩ := tally_eq_singleton hhead
  have hlen : (rowsAt t k).length = 1 := by
    have := congrArg List.length (h.trans hone)
    simpa using this
  obtain ⟨r, hr⟩ := List.length_eq_one_iff.mp hlen
  rw [rowsAt_updateUsage, tally_insert, hsum, hr]
  rfl

theorem tallied_insert {t : QuotaTable} {k : PeriodKey} {is js : List Int} {increment : Int}
    (h : (rowsAt t k).map UsageRow.usedValue = tally (is ++ js))
    (hnone : selectExisting t k = none) (a : Bytes) :
    (rowsAt (insertUsage t k increment a) k).map UsageRow.usedValue =
      tally (is ++ increment :: js) := by
  have hrows : rowsAt t k = [] := by
    rw [selectExisting_eq_head] at hnone
    exact List.head?_eq_none_iff.mp hnone
  have hnil : is ++ js = [] := tally_eq_nil (by simpa [hrows] using h.symm)
  rw [rowsAt_insertUsage, tally_insert, hnil, hrows]
  simp

/-- What one statement does to the rows, between the returns before and after it in the list. -/
theorem runStatement_tallied {c : UsageCall} {w : Window} {t : QuotaTable} {stage : Stage}
    {is js : List Int} (hfresh : FreshStage w c.increment t stage)
    (h : (rowsAt t w.key).map UsageRow.usedValue =
      tally (is ++ ((Session.mk c stage).returnedIncrement.toList ++ js))) :
    (rowsAt (runStatement w c.increment t stage).1 w.key).map UsageRow.usedValue =
      tally (is ++ ((Session.mk c (runStatement w c.increment t stage).2).returnedIncrement.toList
        ++ js)) := by
  cases stage with
  | called =>
    simp only [runStatement]
    split <;> exact h
  | opening => exact h
  | returned reply => exact h
  | raised e => exact h
  | merging r =>
    simp only [runStatement]
    split_ifs with hfit
    · exact tallied_update h (hfresh hfit) _
    · exact h
  | chaining prev =>
    simp only [runStatement]
    split_ifs with hfit
    · exact tallied_insert h (hfresh hfit) _
    · exact h

/-- The call is on the period `k`, unless its arguments are refused. -/
def Targets (k : PeriodKey) (c : UsageCall) : Prop :=
  match checkCall c with
  | .error _ => True
  | .ok w => w.key = k

instance (k : PeriodKey) (c : UsageCall) : Decidable (Targets k c) :=
  match h : checkCall c with
  | .error _ => isTrue (by rw [Targets, h]; trivial)
  | .ok w => decidable_of_iff (w.key = k) (by rw [Targets, h])

theorem advance_call (t : QuotaTable) (s : Session) : (advance t s).2.call = s.call := by
  unfold advance
  split
  · split <;> rfl
  · rfl

theorem returnedIncrements_split (t : QuotaTable) (pre post : List Session) (s : Session) :
    (Ledger.mk t (pre ++ s :: post)).returnedIncrements =
      pre.filterMap Session.returnedIncrement ++
        (s.returnedIncrement.toList ++ post.filterMap Session.returnedIncrement) := by
  simp only [Ledger.returnedIncrements, List.filterMap_append, List.filterMap_cons]
  cases s.returnedIncrement <;> rfl

theorem Tallied.advance {k : PeriodKey} {t : QuotaTable} {pre post : List Session} {s : Session}
    (h : Tallied k ⟨t, pre ++ s :: post⟩) (hon : Targets k s.call)
    (hfresh : Fresh t s) : Tallied k ⟨(advance t s).1, pre ++ (advance t s).2 :: post⟩ := by
  unfold Tallied at h ⊢
  rw [returnedIncrements_split] at h ⊢
  unfold Fresh at hfresh
  unfold Targets at hon
  unfold License.advance
  cases hc : checkCall s.call with
  | error e =>
    obtain ⟨c, stage⟩ := s
    cases stage <;> exact h
  | ok w =>
    rw [hc] at hfresh hon
    obtain rfl := hon
    exact runStatement_tallied hfresh h

/-- Along every interleaving in which each write rests on a fresh read, the
period holds the sum of the increments that returned, in one row. -/
theorem interleaved_usage_tallied {k : PeriodKey} {t : QuotaTable} {calls : List UsageCall}
    (hempty : rowsAt t k = []) (hon : ∀ c ∈ calls, Targets k c) {schedule : List Nat} {l : Ledger}
    (h : Run (fun l i l' => FreshStep l i ∧ l.step i = some l') (Ledger.start t calls) schedule l) :
    Tallied k l := by
  have hinv : (∀ s ∈ l.sessions, Targets k s.call) ∧ Tallied k l := by
    refine h.invariant (I := fun _ l => (∀ s ∈ l.sessions, Targets k s.call) ∧ Tallied k l) ?_ ?_
    · constructor
      · simpa [Ledger.start] using hon
      · have hnone : (Ledger.start t calls).returnedIncrements = [] := by
          simp [Ledger.start, Ledger.returnedIncrements, Session.returnedIncrement]
        rw [Tallied, hnone]
        simp [Ledger.start, hempty, tally]
    · rintro _ l l' i ⟨hcalls, htally⟩ ⟨hfresh, hstep⟩
      obtain ⟨pre, s, post, hs, hsplit, rfl⟩ := Ledger.step_split hstep
      obtain ⟨t, sessions⟩ := l
      obtain rfl : sessions = pre ++ s :: post := hsplit
      refine ⟨?_, htally.advance (hcalls s (by simp)) (hfresh s hs)⟩
      simpa [or_imp, forall_and, advance_call] using hcalls
  exact hinv.2

/-- The period of `mayCall`: May 2026. -/
def mayKey : PeriodKey :=
  ⟨"role_devops", ⟨63913190400000000, by decide⟩, ⟨63915868800000000, by decide⟩⟩

/-- One call after the other: 2 and 3 make 5. -/
theorem interleaved_usage_tallied_serial :
    ∃ l, (rowsAt l.table mayKey).map UsageRow.usedValue = [5] ∧ Tallied mayKey l := by
  have hex : (([0, 0, 0, 1, 1].foldlM (fun l i => if FreshStep l i then l.step i else none)
      (Ledger.start [] [mayCall 2, mayCall 3])).map fun l =>
        (rowsAt l.table mayKey).map UsageRow.usedValue) = some [5] := by
    decide +kernel
  obtain ⟨l, hl, hused⟩ := Option.map_eq_some_iff.mp hex
  exact ⟨l, hused, interleaved_usage_tallied rfl
    (show ∀ c ∈ [mayCall 2, mayCall 3], Targets mayKey c by decide +kernel)
    (Run.of_guarded_foldlM hl)⟩

/-- The second and the third call read the same row, and the later update undoes the earlier. -/
theorem interleaved_usage_loses_update :
    ¬ ∀ (k : PeriodKey) (t : QuotaTable) (calls : List UsageCall), rowsAt t k = [] →
      (∀ c ∈ calls, Targets k c) → ∀ (schedule : List Nat) (l : Ledger),
        Run (fun l i l' => l.step i = some l') (Ledger.start t calls) schedule l → Tallied k l := by
  intro h
  have hex : (([0, 0, 0, 1, 2, 1, 2].foldlM Ledger.step
      (Ledger.start [] [mayCall 1, mayCall 2, mayCall 4])).map fun l =>
        ((rowsAt l.table mayKey).map UsageRow.usedValue, l.returnedIncrements)) =
          some ([5], [1, 2, 4]) := by
    decide +kernel
  obtain ⟨l, hl, heq⟩ := Option.map_eq_some_iff.mp hex
  obtain ⟨hused, hreturned⟩ := Prod.mk.inj heq
  have htally := h mayKey [] [mayCall 1, mayCall 2, mayCall 4] rfl (by decide +kernel) _ l
    (Run.of_foldlM id hl)
  rw [Tallied, hused, hreturned] at htally
  exact absurd htally (by decide)

end SpineFormal.License
