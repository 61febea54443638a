import Mathlib.Data.List.Sort
import SpineFormal.Base.HashChain
import SpineFormal.Base.Run
import SpineFormal.Base.Sha256
import SpineFormal.Base.TextFields

/-!
# The quota usage ledger

`license/quota_ledger.py` over the table `spine_license.quota_usage` of V22.
`record_usage` is split at its SQL statements, so that the same pieces serve
calls run one after another here and interleaved calls in `QuotaInterleaving`.

`record_usage` and `verify_chain` compute a row's predecessor differently. They
agree as long as every call opens a period that starts after all recorded
periods of its flag have ended, and `verify_chain_intact` is that agreement.
-/

namespace SpineFormal.License

open Numerals
set_option autoImplicit false

/-- A row of `quota_usage`; the key columns are instants. -/
structure UsageRow where
  flagName : String
  periodStart : Wall
  periodEnd : Wall
  usedValue : Int
  ledgerAnchor : Option Bytes

/-- The columns an increment is merged on. V22 puts no unique constraint on them. -/
structure PeriodKey where
  flagName : String
  periodStart : Wall
  periodEnd : Wall
  deriving DecidableEq

def UsageRow.key (r : UsageRow) : PeriodKey := ⟨r.flagName, r.periodStart, r.periodEnd⟩

abbrev QuotaTable := List UsageRow

def genesisAnchorHex : List Char := List.replicate 64 '0'

def anchor (prevAnchorHex : List Char) (flagName : String) (periodStart periodEnd : Wall)
    (usedValue : Int) : Bytes :=
  sha256 (encodeUtf8 (prevAnchorHex ++ '\n' :: (flagName.toList ++
    '\n' :: (periodStart.isoformatUtc ++ '\n' :: (periodEnd.isoformatUtc ++
      '\n' :: decimal usedValue)))))

/-- The stored anchor in hex; a missing or empty one counts as genesis. -/
def anchorHex : Option Bytes → List Char
  | some (b :: bs) => hex (b :: bs)
  | _ => genesisAnchorHex

/-- `_default_period`: the calendar month of `now`, read off its own clock; `none`
when the next month has no year. -/
def defaultPeriod (now : Wall) : Option (Aware × Aware) :=
  let c := now.calendar
  let next := if c.month = 12 then (c.year + 1, 1) else (c.year, c.month + 1)
  if 9999 < next.1 then none
  else
    (Wall.ofCalendar ⟨c.year, c.month, 1, 0, 0, 0, 0⟩).bind fun start =>
      (Wall.ofCalendar ⟨next.1, next.2, 1, 0, 0, 0, 0⟩).map fun stop => (start.inUtc, stop.inUtc)

/-- The arguments of `record_usage`; `now` is what the clock is taken to show. -/
structure UsageCall where
  flagName : String
  increment : Int
  periodStart : Option Aware
  periodEnd : Option Aware
  now : Wall

inductive UsageError where
  /-- `increment < 0`. -/
  | negativeIncrement (increment : Int)
  /-- `_default_period` in December 9999. -/
  | yearOutOfRange
  /-- `period_end <= period_start`. -/
  | emptyPeriod
  /-- A bound whose UTC form has no date. -/
  | dateOverflow
  /-- PostgreSQL text holds no NUL. -/
  | nulInFlag
  /-- The new value does not fit `BIGINT`. -/
  | bigintOverflow

/-- The texts of the two errors `record_usage` raises itself. -/
def UsageError.message : UsageError → Option (List Char)
  | .negativeIncrement n => some ("increment must be >= 0, got ".toList ++ decimal n)
  | .emptyPeriod => some "period_end must be strictly after period_start".toList
  | _ => none

/-- The billing window of an accepted call, as given and as the statements see it. -/
structure Window where
  start : Aware
  stop : Aware
  key : PeriodKey

/-- The period given, or the month of `now` when either bound is missing. -/
def billingPeriod (c : UsageCall) : Except UsageError (Aware × Aware) :=
  match c.periodStart, c.periodEnd with
  | some start, some stop => .ok (start, stop)
  | _, _ =>
    match defaultPeriod c.now with
    | some p => .ok p
    | none => .error .yearOutOfRange

/-- Everything `record_usage` does before its first statement reaches the table. -/
def checkCall (c : UsageCall) : Except UsageError Window :=
  if c.increment < 0 then .error (.negativeIncrement c.increment)
  else
    match billingPeriod c with
    | .error e => .error e
    | .ok (start, stop) =>
      if stop.utc ≤ start.utc then .error .emptyPeriod
      else
        match start.astimezoneUtc, stop.astimezoneUtc with
        | some s, some e =>
          if '\x00' ∈ c.flagName.toList then .error .nulInFlag
          else .ok ⟨start, stop, c.flagName, s, e⟩
        | _, _ => .error .dateOverflow

/-! ## The statements -/

/-- `SELECT used_value, ledger_anchor ... FOR UPDATE`. -/
def selectExisting (t : QuotaTable) (k : PeriodKey) : Option UsageRow :=
  t.find? fun r => decide (r.key = k)

/-- `UPDATE ... SET used_value, ledger_anchor`. -/
def updateUsage (t : QuotaTable) (k : PeriodKey) (used : Int) (a : Bytes) : QuotaTable :=
  t.map fun r => if r.key = k then { r with usedValue := used, ledgerAnchor := some a } else r

def laterEnd (a b : UsageRow) : Prop := b.periodEnd ≤ a.periodEnd

instance : DecidableRel laterEnd := fun a b => inferInstanceAs (Decidable (b.periodEnd ≤ a.periodEnd))

/-- `SELECT ledger_anchor ... WHERE period_end <= $2 ORDER BY period_end DESC LIMIT 1`. -/
def selectPrevious (t : QuotaTable) (flagName : String) (periodStart : Wall) : Option UsageRow :=
  ((t.filter fun r => decide (r.flagName = flagName ∧ r.periodEnd ≤ periodStart)).insertionSort
    laterEnd).head?

/-- `INSERT INTO ... VALUES`. -/
def insertUsage (t : QuotaTable) (k : PeriodKey) (used : Int) (a : Bytes) : QuotaTable :=
  t ++ [⟨k.flagName, k.periodStart, k.periodEnd, used, some a⟩]

def fitsBigint (n : Int) : Prop := -2 ^ 63 ≤ n ∧ n < 2 ^ 63

instance (n : Int) : Decidable (fitsBigint n) :=
  inferInstanceAs (Decidable (-2 ^ 63 ≤ n ∧ n < 2 ^ 63))

def PeriodKey.anchor (k : PeriodKey) (prevAnchorHex : List Char) (used : Int) : Bytes :=
  License.anchor prevAnchorHex k.flagName k.periodStart k.periodEnd used

/-- The value a call with this increment would store. -/
def newUsed (t : QuotaTable) (k : PeriodKey) (increment : Int) : Int :=
  match selectExisting t k with
  | some r => r.usedValue + increment
  | none => increment

/-- The dictionary `record_usage` returns. -/
structure UsageReply where
  flagName : String
  periodStart : List Char
  periodEnd : List Char
  usedValue : Int
  ledgerAnchorHex : List Char
  createdRow : Bool

def Window.reply (w : Window) (used : Int) (a : Bytes) (created : Bool) : UsageReply :=
  ⟨w.key.flagName, w.start.isoformat, w.stop.isoformat, used, hex a, created⟩

/-- `record_usage` on a table no one else writes to. -/
def recordUsage (t : QuotaTable) (c : UsageCall) : Except UsageError (QuotaTable × UsageReply) :=
  match checkCall c with
  | .error e => .error e
  | .ok w =>
    match selectExisting t w.key with
    | some r =>
      let used := r.usedValue + c.increment
      -- the row's own anchor, not its predecessor's
      let a := w.key.anchor (anchorHex r.ledgerAnchor) used
      if fitsBigint used then .ok (updateUsage t w.key used a, w.reply used a false)
      else .error .bigintOverflow
    | none =>
      let used := c.increment
      let prev := (selectPrevious t w.key.flagName w.key.periodStart).bind UsageRow.ledgerAnchor
      let a := w.key.anchor (anchorHex prev) used
      if fitsBigint used then .ok (insertUsage t w.key used a, w.reply used a true)
      else .error .bigintOverflow

/-- The table after a call; one that raises leaves it alone. -/
def afterCall (t : QuotaTable) (c : UsageCall) : QuotaTable :=
  match recordUsage t c with
  | .ok (t', _) => t'
  | .error _ => t

/-! ## Verification -/

structure BadRow where
  flagName : String
  periodStart : List Char
  expectedAnchorHex : List Char
  actualAnchorHex : Option (List Char)

structure ChainReport where
  ok : Bool
  rowsChecked : Nat
  firstBadRow : Option BadRow

/-- The loop of `verify_chain`, from row number `idx` on. -/
def replay (flagName : String) : List Char → Nat → List UsageRow → ChainReport
  | _, idx, [] => ⟨true, idx, none⟩
  | prevAnchorHex, idx, r :: rs =>
    let expected := anchor prevAnchorHex flagName r.periodStart r.periodEnd r.usedValue
    if r.ledgerAnchor = some expected then replay flagName (hex expected) (idx + 1) rs
    else
      ⟨false, idx + 1, some ⟨flagName, r.periodStart.isoformatUtc, hex expected,
        if r.ledgerAnchor = some [] then none else r.ledgerAnchor.map hex⟩⟩

def earlierStart (a b : UsageRow) : Prop := a.periodStart ≤ b.periodStart

instance : DecidableRel earlierStart :=
  fun a b => inferInstanceAs (Decidable (a.periodStart ≤ b.periodStart))

def rowsOf (t : QuotaTable) (flagName : String) : List UsageRow :=
  t.filter fun r => decide (r.flagName = flagName)

def verifyChain (t : QuotaTable) (flagName : String) : ChainReport :=
  replay flagName genesisAnchorHex 0 ((rowsOf t flagName).insertionSort earlierStart)

/-- The row carries the anchor that `verify_chain` expects after `prevAnchorHex`. -/
def Anchored (flagName : String) (prevAnchorHex : List Char) (r : UsageRow) : Prop :=
  r.ledgerAnchor = some (anchor prevAnchorHex flagName r.periodStart r.periodEnd r.usedValue)

def UsageRow.tip (r : UsageRow) : List Char := anchorHex r.ledgerAnchor

theorem anchorHex_anchor (prev : List Char) (flagName : String) (start stop : Wall) (used : Int) :
    anchorHex (some (anchor prev flagName start stop used)) =
      hex (anchor prev flagName start stop used) := by
  have hlen : (anchor prev flagName start stop used).length = 32 := sha256_length _
  cases h : anchor prev flagName start stop used with
  | nil => simp [h] at hlen
  | cons b bs => rfl

theorem replay_ok_iff (flagName : String) (prev : List Char) (idx : Nat) (rs : List UsageRow) :
    (replay flagName prev idx rs).ok = true ↔
      Linked (Anchored flagName) UsageRow.tip prev rs := by
  induction rs generalizing prev idx with
  | nil => simp [replay, Linked]
  | cons r rs ih =>
    simp only [replay, Linked, Anchored]
    split
    · rename_i h
      rw [ih, UsageRow.tip, h, anchorHex_anchor]
      simp
    · rename_i h
      simp [h]

/-! ## Calls in order -/

/-- What keeps the two readings of the chain together: rows of a flag lie one
after another in time, in the order in which they were written. -/
structure Intact (t : QuotaTable) : Prop where
  nonempty : ∀ r ∈ t, r.periodStart < r.periodEnd
  ordered : ∀ flag, (rowsOf t flag).Pairwise fun a b => a.periodEnd ≤ b.periodStart
  linked : ∀ flag, Linked (Anchored flag) UsageRow.tip genesisAnchorHex (rowsOf t flag)

theorem mem_rowsOf {t : QuotaTable} {flag : String} {r : UsageRow} :
    r ∈ rowsOf t flag ↔ r ∈ t ∧ r.flagName = flag := by
  simp [rowsOf]

theorem intact_nil : Intact [] where
  nonempty := by simp
  ordered := by simp [rowsOf]
  linked := by simp [rowsOf, Linked]

theorem Intact.verify {t : QuotaTable} (h : Intact t) (flag : String) :
    (verifyChain t flag).ok = true := by
  have hsorted : (rowsOf t flag).Pairwise earlierStart := by
    apply (h.ordered flag).imp_of_mem
    intro a b ha _ hab
    exact le_trans (le_of_lt (h.nonempty a (mem_rowsOf.mp ha).1)) hab
  rw [verifyChain, hsorted.insertionSort_eq, replay_ok_iff]
  exact h.linked flag

/-- In a list ordered by period the latest end belongs to the last row. -/
theorem head_insertionSort_laterEnd {rs : List UsageRow}
    (hne : ∀ r ∈ rs, r.periodStart < r.periodEnd)
    (hord : rs.Pairwise fun a b => a.periodEnd ≤ b.periodStart) :
    (rs.insertionSort laterEnd).head? = rs.getLast? := by
  have htotal : Std.Total laterEnd := ⟨fun a b => le_total b.periodEnd a.periodEnd⟩
  have htrans : IsTrans UsageRow laterEnd := ⟨fun _ _ _ hab hbc => le_trans hbc hab⟩
  cases rs using List.reverseRecOn with
  | nil => rfl
  | append_singleton rs l =>
    rw [List.getLast?_concat]
    have hperm := List.perm_insertionSort laterEnd (rs ++ [l])
    have hsorted := List.pairwise_insertionSort laterEnd (rs ++ [l])
    cases hs : (rs ++ [l]).insertionSort laterEnd with
    | nil => simp [hs] at hperm
    | cons top rest =>
      rw [hs] at hperm hsorted
      rcases List.mem_append.mp (hperm.subset List.mem_cons_self) with htop | htop
      · -- an earlier row ends before the last one starts, so it does not come first
        have hearly : top.periodEnd ≤ l.periodStart :=
          (List.pairwise_append.mp hord).2.2 top htop l List.mem_cons_self
        have hlate : l.periodEnd ≤ top.periodEnd := by
          rcases List.mem_cons.mp (hperm.mem_iff.mpr (by simp) : l ∈ top :: rest) with rfl | hl
          · exact le_refl _
          · exact (List.pairwise_cons.mp hsorted).1 l hl
        have hl := hne l (by simp)
        exact absurd (lt_of_lt_of_le hl hlate) (not_lt_of_ge hearly)
      · obtain rfl := List.mem_singleton.mp htop
        rfl

theorem Intact.selectPrevious_eq {t : QuotaTable} (h : Intact t) {flag : String} {start : Wall}
    (hend : ∀ r ∈ t, r.flagName = flag → r.periodEnd ≤ start) :
    selectPrevious t flag start = (rowsOf t flag).getLast? := by
  have hfilter : (t.filter fun r => decide (r.flagName = flag ∧ r.periodEnd ≤ start)) =
      rowsOf t flag := by
    apply List.filter_congr
    intro r hr
    simp only [decide_eq_decide, and_iff_left_iff_imp]
    exact hend r hr
  rw [selectPrevious, hfilter]
  exact head_insertionSort_laterEnd (fun r hr => h.nonempty r (mem_rowsOf.mp hr).1) (h.ordered flag)

/-- The predecessor an insert chains to is the tip `verify_chain` arrives at. -/
theorem Intact.anchorHex_previous {t : QuotaTable} (h : Intact t) {flag : String} {start : Wall}
    (hend : ∀ r ∈ t, r.flagName = flag → r.periodEnd ≤ start) :
    anchorHex ((selectPrevious t flag start).bind UsageRow.ledgerAnchor) =
      tipAfter UsageRow.tip genesisAnchorHex (rowsOf t flag) := by
  rw [h.selectPrevious_eq hend, tipAfter_eq_getLast]
  cases (rowsOf t flag).getLast? <;> rfl

theorem rowsOf_insertUsage (t : QuotaTable) (k : PeriodKey) (used : Int) (a : Bytes) (flag : String) :
    rowsOf (insertUsage t k used a) flag =
      if k.flagName = flag then
        rowsOf t flag ++ [⟨k.flagName, k.periodStart, k.periodEnd, used, some a⟩]
      else rowsOf t flag := by
  by_cases h : k.flagName = flag <;> simp [rowsOf, insertUsage, h]

theorem Intact.insert {t : QuotaTable} (h : Intact t) {k : PeriodKey}
    (hk : k.periodStart < k.periodEnd)
    (hend : ∀ r ∈ t, r.flagName = k.flagName → r.periodEnd ≤ k.periodStart) (used : Int) :
    Intact (insertUsage t k used (k.anchor
      (anchorHex ((selectPrevious t k.flagName k.periodStart).bind UsageRow.ledgerAnchor)) used)) where
  nonempty := by
    intro r hr
    rcases List.mem_append.mp hr with hr | hr
    · exact h.nonempty r hr
    · obtain rfl := List.mem_singleton.mp hr
      exact hk
  ordered := by
    intro flag
    rw [rowsOf_insertUsage]
    split_ifs with hflag
    · refine List.pairwise_append.mpr ⟨h.ordered flag, List.pairwise_singleton _ _, ?_⟩
      intro a ha b hb
      obtain rfl := List.mem_singleton.mp hb
      obtain ⟨ha, haf⟩ := mem_rowsOf.mp ha
      exact hend a ha (haf.trans hflag.symm)
    · exact h.ordered flag
  linked := by
    intro flag
    rw [rowsOf_insertUsage]
    split_ifs with hflag
    · subst hflag
      exact linked_concat.mpr
        ⟨h.linked _, congrArg (fun p => some (k.anchor p used)) (h.anchorHex_previous hend)⟩
    · exact h.linked flag

/-- An accepted call opens a period no earlier than the end of every recorded
period of its flag. A call whose new value does not fit is not accepted. -/
def OpensLater (t : QuotaTable) (c : UsageCall) : Prop :=
  match checkCall c with
  | .error _ => True
  | .ok w => fitsBigint (newUsed t w.key c.increment) →
      ∀ r ∈ t, r.flagName = w.key.flagName → r.periodEnd ≤ w.key.periodStart

instance (t : QuotaTable) (c : UsageCall) : Decidable (OpensLater t c) := by
  unfold OpensLater
  split
  · exact isTrue trivial
  · infer_instance

theorem checkCall_nonempty {c : UsageCall} {w : Window} (h : checkCall c = .ok w) :
    w.key.periodStart < w.key.periodEnd := by
  unfold checkCall at h
  split at h
  · contradiction
  · split at h
    · contradiction
    · split at h
      · contradiction
      · rename_i hlt
        split at h
        · rename_i s e hs he
          split at h
          · contradiction
          · obtain rfl := Except.ok.inj h
            have hs' := Aware.astimezoneUtc_micros hs
            have he' := Aware.astimezoneUtc_micros he
            show s.micros < e.micros
            omega
        · contradiction

theorem selectExisting_none {t : QuotaTable} {k : PeriodKey} (hk : k.periodStart < k.periodEnd)
    (hend : ∀ r ∈ t, r.flagName = k.flagName → r.periodEnd ≤ k.periodStart) :
    selectExisting t k = none := by
  apply List.find?_eq_none.mpr
  intro r hr
  simp only [decide_eq_true_eq]
  rintro rfl
  exact absurd (hend r hr rfl) (not_le_of_gt hk)

theorem Intact.afterCall {t : QuotaTable} {c : UsageCall} (h : Intact t) (hc : OpensLater t c) :
    Intact (afterCall t c) := by
  unfold License.afterCall recordUsage
  unfold OpensLater at hc
  cases hw : checkCall c with
  | error e => exact h
  | ok w =>
    simp only [hw] at hc ⊢
    have hk := checkCall_nonempty hw
    cases hex : selectExisting t w.key with
    | some r =>
      -- merging into a recorded period is what the condition excludes
      simp only [newUsed, hex] at hc ⊢
      split_ifs with hfit
      · rw [selectExisting_none hk (hc hfit)] at hex
        contradiction
      · exact h
    | none =>
      simp only [newUsed, hex] at hc ⊢
      split_ifs with hfit
      · exact h.insert hk (hc hfit) c.increment
      · exact h

/-- In every run of calls that each open a later period, `verify_chain` reports
the chain of every flag as intact, after every call. -/
theorem verify_chain_intact {calls : List UsageCall} {t : QuotaTable}
    (h : Run (fun t c t' => OpensLater t c ∧ t' = afterCall t c) [] calls t) (flag : String) :
    (verifyChain t flag).ok = true := by
  have hintact : Intact t := by
    refine h.invariant (I := fun _ t => Intact t) intact_nil ?_
    rintro _ t _ c ht ⟨hc, rfl⟩
    exact ht.afterCall hc
  exact hintact.verify flag

/-- Use of one flag at noon on 18 May 2026, in the default period. -/
def mayCall (increment : Int) : UsageCall :=
  ⟨"role_devops", increment, none, none, ⟨63914702400000000, noonMay18_lt_maxWall⟩⟩

def juneCall (increment : Int) : UsageCall :=
  ⟨"role_devops", increment, none, none, ⟨63917380800000000, by decide⟩⟩

theorem verify_chain_intact_two_months :
    (verifyChain (afterCall (afterCall [] (mayCall 5)) (juneCall 3)) "role_devops").ok = true :=
  verify_chain_intact
    (.snoc (.snoc .start ⟨by decide +kernel, rfl⟩) ⟨by decide +kernel, rfl⟩) "role_devops"

/-- Two increments in one month: the second chains the row to its own former anchor. -/
theorem verify_chain_broken_by_second_increment :
    ¬ ∀ (calls : List UsageCall), (∀ c ∈ calls, 0 ≤ c.increment) →
      ∀ flag, (verifyChain (calls.foldl afterCall []) flag).ok = true := by
  intro h
  have hok := h [mayCall 1, mayCall 1] (by decide) "role_devops"
  have hbad : (verifyChain ([mayCall 1, mayCall 1].foldl afterCall []) "role_devops").ok = false := by
    decide +kernel
  rw [hbad] at hok
  contradiction

end SpineFormal.License
