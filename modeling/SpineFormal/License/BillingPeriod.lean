import SpineFormal.Base.Months
import SpineFormal.License.QuotaLedger

/-!
# The calendar month of a call

`_default_period` of an aware `now`: `replace` puts the clock's own month on UTC, where
`astimezone` would have asked for the month of the instant.
-/

namespace SpineFormal.License

set_option autoImplicit false

/-- `_default_period` of an aware `now`. -/
def currentPeriod (now : Aware) : Option (Aware × Aware) := defaultPeriod now.wall

/-! ## The specification -/

/-- `period_start <= now < period_end`, as instants. -/
def Covers (period : Option (Aware × Aware)) (now : Aware) : Prop :=
  ∃ start stop, period = some (start, stop) ∧ start.utc ≤ now.utc ∧ now.utc < stop.utc

def SameUtcMonth (a b : Aware) : Prop :=
  ∃ u v, a.astimezoneUtc = some u ∧ b.astimezoneUtc = some v ∧
    u.calendar.year = v.calendar.year ∧ u.calendar.month = v.calendar.month

structure PeriodLaw (a b : Aware) : Prop where
  covers : Covers (currentPeriod a) a ∧ Covers (currentPeriod b) b
  same : SameUtcMonth a b → currentPeriod a = currentPeriod b

/-- The clock of `now` shows the year and the month of UTC, and not December 9999. -/
def OnUtcMonth (now : Aware) : Prop :=
  (∃ u, now.astimezoneUtc = some u ∧ u.calendar.year = now.wall.calendar.year ∧
    u.calendar.month = now.wall.calendar.month) ∧
  ¬ (now.wall.calendar.year = 9999 ∧ now.wall.calendar.month = 12)

/-! ## The period of a month -/

/-- The last month that a `datetime` can be in. -/
theorem month_lt_iff {w : Wall} : w.month < monthIndex 9999 12 ↔
    ¬ (w.calendar.year = 9999 ∧ w.calendar.month = 12) ∧ w.calendar.year ≤ 9999 := by
  obtain ⟨hyear, ⟨hpos, hle⟩, -, -⟩ := w.calendar_date
  rw [Wall.month, monthIndex, monthIndex]
  omega

theorem ofCalendar_first (year month : Nat) (hyear : 1 ≤ year) (hmax : year ≤ 9999)
    (hpos : 1 ≤ month) (hle : month ≤ 12) :
    ∃ w : Wall, Wall.ofCalendar ⟨year, month, 1, 0, 0, 0, 0⟩ = some w ∧
      w.micros = monthStart (monthIndex year month) := by
  have hsum : (ymd2ord year month 1 - 1) * dayMicros +
      (0 * 3600000000 + 0 * 60000000 + 0 * 1000000 + 0) = monthStart (monthIndex year month) := by
    rw [monthStart, monthFirst_monthIndex hyear hpos hle]
    simp only [Nat.zero_mul, Nat.add_zero]
  have hmonth : monthIndex year month < monthIndex 10000 1 := by
    rw [monthIndex, monthIndex]
    omega
  have hend : monthStart (monthIndex 10000 1) = maxWall := by decide
  have hlt := monthStart_strictMono hmonth
  rw [hend] at hlt
  exact ⟨⟨_, hlt⟩, by simp only [Wall.ofCalendar, hsum, hlt, dif_pos], rfl⟩

theorem utc_inUtc (w : Wall) : w.inUtc.utc = w.micros := by
  rw [Aware.utc, Wall.inUtc, Int.sub_zero]

/-- The period is the month the clock shows. -/
theorem defaultPeriod_eq {now : Wall} (h : now.month < monthIndex 9999 12) :
    ∃ start stop : Wall, defaultPeriod now = some (start.inUtc, stop.inUtc) ∧
      start.micros = monthStart now.month ∧ stop.micros = monthStart (now.month + 1) := by
  obtain ⟨hlast, hmax⟩ := month_lt_iff.mp h
  obtain ⟨hyear, ⟨hpos, hle⟩, -, -⟩ := now.calendar_date
  obtain ⟨start, hstart, hfirst⟩ := ofCalendar_first _ _ hyear hmax hpos hle
  by_cases hdecember : now.calendar.month = 12
  · have hin : ¬ 9999 < now.calendar.year + 1 := by omega
    have hnext : monthIndex (now.calendar.year + 1) 1 = now.month + 1 := by
      rw [Wall.month, monthIndex, monthIndex]
      omega
    obtain ⟨stop, hstop, hend⟩ := ofCalendar_first (now.calendar.year + 1) 1 (by omega)
      (by omega) (by decide) (by decide)
    refine ⟨start, stop, ?_, hfirst, hend.trans (congrArg monthStart hnext)⟩
    simp only [defaultPeriod, if_pos hdecember, if_neg hin, hstart, hstop, Option.bind_some,
      Option.map_some]
  · have hin : ¬ 9999 < now.calendar.year := by omega
    have hnext : monthIndex now.calendar.year (now.calendar.month + 1) = now.month + 1 := by
      rw [Wall.month, monthIndex, monthIndex]
      omega
    obtain ⟨stop, hstop, hend⟩ := ofCalendar_first _ (now.calendar.month + 1) hyear hmax
      (by omega) (by omega)
    refine ⟨start, stop, ?_, hfirst, hend.trans (congrArg monthStart hnext)⟩
    simp only [defaultPeriod, if_neg hdecember, if_neg hin, hstart, hstop, Option.bind_some,
      Option.map_some]

theorem defaultPeriod_last {now : Wall} (h : ¬ now.month < monthIndex 9999 12) :
    defaultPeriod now = none := by
  rw [month_lt_iff, not_and_or, not_not, not_le] at h
  rw [defaultPeriod]
  rcases h with ⟨hyear, hmonth⟩ | hyear
  · simp only [hyear, hmonth, if_true]
    rfl
  · by_cases hmonth : now.calendar.month = 12
    · simp only [hmonth, if_true]
      exact if_pos (Nat.lt_succ_of_lt hyear)
    · simp only [if_neg hmonth]
      exact if_pos hyear

/-! ## The law -/

theorem onUtcMonth_iff {now : Aware} : OnUtcMonth now ↔
    (∃ u, now.astimezoneUtc = some u ∧ u.month = now.wall.month) ∧
      now.wall.month < monthIndex 9999 12 := by
  have hyear : now.wall.calendar.year ≤ 9999 := by
    have hlt := now.wall.calendar_fits.year
    omega
  rw [OnUtcMonth, month_lt_iff, and_iff_left hyear]
  simp only [Wall.month_eq_month_iff]

theorem covers_iff (now : Aware) : Covers (currentPeriod now) now ↔ OnUtcMonth now := by
  rw [onUtcMonth_iff]
  by_cases hlast : now.wall.month < monthIndex 9999 12
  · obtain ⟨start, stop, hperiod, hstart, hstop⟩ := defaultPeriod_eq hlast
    constructor
    · rintro ⟨start', stop', hperiod', hle, hlt⟩
      rw [currentPeriod, hperiod] at hperiod'
      obtain ⟨rfl, rfl⟩ := Prod.mk.inj (Option.some.inj hperiod')
      rw [utc_inUtc, hstart] at hle
      rw [utc_inUtc, hstop] at hlt
      obtain ⟨n, hn⟩ := Int.eq_ofNat_of_zero_le ((Int.natCast_nonneg _).trans hle)
      have hend := stop.micros_lt
      rw [hstop] at hend
      rw [hn] at hle hlt
      have hu : now.astimezoneUtc = some ⟨n, by omega⟩ := Aware.astimezoneUtc_of_utc hn
      exact ⟨⟨_, hu, Wall.month_eq_iff.mpr ⟨Int.ofNat_le.mp hle, Int.ofNat_lt.mp hlt⟩⟩, hlast⟩
    · rintro ⟨⟨u, hu, hmonth⟩, -⟩
      obtain ⟨hle, hlt⟩ := Wall.month_eq_iff.mp hmonth
      refine ⟨start.inUtc, stop.inUtc, hperiod, ?_, ?_⟩
      · rw [utc_inUtc, hstart, ← Aware.astimezoneUtc_micros hu]
        exact Int.ofNat_le.mpr hle
      · rw [utc_inUtc, hstop, ← Aware.astimezoneUtc_micros hu]
        exact Int.ofNat_lt.mpr hlt
  · refine iff_of_false ?_ fun h => hlast h.2
    rintro ⟨start, stop, hperiod, -⟩
    rw [currentPeriod, defaultPeriod_last hlast] at hperiod
    cases hperiod

theorem currentPeriod_congr {a b : Aware} (ha : OnUtcMonth a) (hb : OnUtcMonth b)
    (h : SameUtcMonth a b) : currentPeriod a = currentPeriod b := by
  obtain ⟨u, v, hu, hv, hyear, hmonth⟩ := h
  obtain ⟨⟨u', hu', hyeara, hmontha⟩, -⟩ := ha
  obtain ⟨⟨v', hv', hyearb, hmonthb⟩, -⟩ := hb
  obtain rfl : u = u' := Option.some.inj (hu.symm.trans hu')
  obtain rfl : v = v' := Option.some.inj (hv.symm.trans hv')
  have hy : a.wall.calendar.year = b.wall.calendar.year := by omega
  have hm : a.wall.calendar.month = b.wall.calendar.month := by omega
  rw [currentPeriod, currentPeriod, defaultPeriod, defaultPeriod, hy, hm]

theorem periodLaw_iff (a b : Aware) : PeriodLaw a b ↔ OnUtcMonth a ∧ OnUtcMonth b := by
  constructor
  · intro h
    exact ⟨(covers_iff a).mp h.covers.1, (covers_iff b).mp h.covers.2⟩
  · rintro ⟨ha, hb⟩
    exact ⟨⟨(covers_iff a).mpr ha, (covers_iff b).mpr hb⟩, currentPeriod_congr ha hb⟩

/-! ## The evening of the thirty-first in New York -/

/-- `2026-01-31T23:30:00-05:00`, when it is February in UTC. -/
def newYorkEvening : Aware where
  wall := ⟨63905499000000000, by decide⟩
  offset := -18000000000
  offset_lt := by decide

theorem january_misses_newYorkEvening :
    newYorkEvening.wall.isoformat = "2026-01-31T23:30:00".toList ∧
      ¬ PeriodLaw newYorkEvening newYorkEvening := by
  refine ⟨by decide, fun h => ?_⟩
  obtain ⟨⟨u, hu, -, hmonth⟩, -⟩ := (covers_iff newYorkEvening).mp h.covers.1
  have hfebruary : newYorkEvening.astimezoneUtc.map (fun u => u.calendar.month) = some 2 := by
    decide
  rw [hu] at hfebruary
  have hjanuary : newYorkEvening.wall.calendar.month = 1 := by decide
  rw [Option.map_some, hmonth, hjanuary] at hfebruary
  cases hfebruary

end SpineFormal.License
