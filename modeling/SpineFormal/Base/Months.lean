import Mathlib.Order.Monotone.Basic
import SpineFormal.Base.TextFields

/-!
# Calendar months

Months numbered from January of the year 1, the day and the microsecond each begins with, and
the month of a wall-clock reading as the interval it lies in.
-/

namespace SpineFormal

set_option autoImplicit false

def monthIndex (year month : Nat) : Nat := (year - 1) * 12 + (month - 1)

/-- The ordinal of a month's first day. -/
def monthFirst (k : Nat) : Nat := ymd2ord (k / 12 + 1) (k % 12 + 1) 1

theorem daysBeforeYear_succ (k : Nat) : daysBeforeYear (k + 1 + 1) =
    daysBeforeYear (k + 1) + 365 + if isLeap (k + 1) = true then 1 else 0 := by
  have hleap : isLeap (k + 1) = true ↔
      (k + 1) % 4 = 0 ∧ ((k + 1) % 100 ≠ 0 ∨ (k + 1) % 400 = 0) := by
    simp only [isLeap, Bool.and_eq_true, Bool.or_eq_true, beq_iff_eq, bne_iff_ne]
  have hle : k / 100 ≤ k / 4 := Nat.div_le_div_left (by decide) (by decide)
  have hhundred : (k + 1) % 100 = 0 → (k + 1) % 4 = 0 := by omega
  have hfour : (k + 1) % 400 = 0 → (k + 1) % 100 = 0 := by omega
  rw [daysBeforeYear, daysBeforeYear, Nat.add_sub_cancel, Nat.add_sub_cancel]
  simp only [Nat.succ_div, Nat.dvd_iff_mod_eq_zero, hleap]
  generalize (k + 1) % 4 = r4 at *
  generalize (k + 1) % 100 = r100 at *
  generalize (k + 1) % 400 = r400 at *
  split_ifs <;> omega

theorem daysBeforeMonth_succ : ∀ leap : Bool, ∀ m < 11,
    daysBeforeMonth leap (m + 1) < daysBeforeMonth leap (m + 1 + 1) := by decide

theorem monthFirst_succ (k : Nat) : monthFirst k < monthFirst (k + 1) := by
  rw [monthFirst, monthFirst, ymd2ord, ymd2ord]
  by_cases hlast : k % 12 = 11
  · have hyear : (k + 1) / 12 = k / 12 + 1 := by omega
    have hmonth : (k + 1) % 12 = 0 := by omega
    have hjanuary : ∀ leap : Bool, daysBeforeMonth leap (0 + 1) = 0 := by decide
    have hdecember : ∀ leap : Bool,
        daysBeforeMonth leap (11 + 1) = 334 + if leap = true then 1 else 0 := by decide
    rw [hyear, hmonth, hlast, hjanuary, hdecember, daysBeforeYear_succ]
    omega
  · have hyear : (k + 1) / 12 = k / 12 := by omega
    have hmonth : (k + 1) % 12 = k % 12 + 1 := by omega
    have hlt := daysBeforeMonth_succ (isLeap (k / 12 + 1)) (k % 12) (by omega)
    rw [hyear, hmonth]
    omega

theorem monthFirst_strictMono : StrictMono monthFirst := strictMono_nat_of_lt_succ monthFirst_succ

/-! ## The month of an ordinal -/

theorem monthDay_end : ∀ leap : Bool, ∀ n < 365, 1 ≤ (monthDay leap n).2 ∧
    ((monthDay leap n).1 < 12 → daysBeforeMonth leap (monthDay leap n).1 + (monthDay leap n).2 ≤
      daysBeforeMonth leap ((monthDay leap n).1 + 1)) := by
  decide +kernel

/-- A day of the month, and the month it is in. -/
structure MonthDate (year month day : Nat) : Prop where
  year_pos : 1 ≤ year
  month_range : 1 ≤ month ∧ month ≤ 12
  day_range : 1 ≤ day ∧ day ≤ 31
  within : month < 12 →
    daysBeforeMonth (isLeap year) month + day ≤ daysBeforeMonth (isLeap year) (month + 1)

theorem ord2ymd_date (n : Nat) :
    MonthDate (ord2ymd n).1 (ord2ymd n).2.1 (ord2ymd n).2.2 := by
  unfold ord2ymd
  dsimp only
  generalize h400 : (n - 1) / 146097 = n400
  generalize ha : (n - 1) % 146097 = a
  generalize h100 : a / 36524 = n100
  generalize hb : a % 36524 = b
  generalize h4 : b / 1461 = n4
  generalize hc : b % 1461 = c
  generalize h1 : c / 365 = n1
  generalize hr : c % 365 = r
  split_ifs with hlast
  · dsimp only
    exact ⟨by omega, by decide, by decide, fun h => absurd h (by decide)⟩
  · obtain ⟨hm, hd, -⟩ := monthDay_spec (n1 == 3 && (n4 != 24 || n100 == 3)) r (by omega)
    obtain ⟨hpos, hend⟩ := monthDay_end (n1 == 3 && (n4 != 24 || n100 == 3)) r (by omega)
    refine ⟨by omega, hm, ⟨hpos, hd⟩, ?_⟩
    rw [isLeap_cycle (by omega) (by omega) (by omega)]
    exact hend

theorem monthFirst_monthIndex {year month : Nat} (hyear : 1 ≤ year) (hmonth : 1 ≤ month)
    (hle : month ≤ 12) : monthFirst (monthIndex year month) = ymd2ord year month 1 := by
  have hdiv : monthIndex year month / 12 + 1 = year := by rw [monthIndex]; omega
  have hmod : monthIndex year month % 12 + 1 = month := by rw [monthIndex]; omega
  rw [monthFirst, hdiv, hmod]

theorem MonthDate.mem_month {year month day : Nat} (h : MonthDate year month day) :
    monthFirst (monthIndex year month) ≤ ymd2ord year month day ∧
      ymd2ord year month day < monthFirst (monthIndex year month + 1) := by
  obtain ⟨hyear, ⟨hpos, hle⟩, ⟨hday, hlong⟩, hwithin⟩ := h
  rw [monthFirst_monthIndex hyear hpos hle]
  refine ⟨by rw [ymd2ord, ymd2ord]; omega, ?_⟩
  by_cases hlast : month = 12
  · subst hlast
    have hnext : monthIndex year 12 + 1 = monthIndex (year + 1) 1 := by
      rw [monthIndex, monthIndex]
      omega
    have hjanuary : ∀ leap : Bool, daysBeforeMonth leap 1 = 0 := by decide
    have hdecember : ∀ leap : Bool,
        daysBeforeMonth leap 12 = 334 + if leap = true then 1 else 0 := by decide
    obtain ⟨k, rfl⟩ : ∃ k, year = k + 1 := ⟨year - 1, by omega⟩
    rw [hnext, monthFirst_monthIndex (Nat.le_add_left 1 _) (by decide) (by decide), ymd2ord,
      ymd2ord, hjanuary, hdecember, daysBeforeYear_succ]
    omega
  · have hnext : monthIndex year month + 1 = monthIndex year (month + 1) := by
      rw [monthIndex, monthIndex]
      omega
    have hend := hwithin (by omega)
    rw [hnext, monthFirst_monthIndex hyear (Nat.le_add_left 1 _) (by omega), ymd2ord, ymd2ord]
    omega

/-! ## The month of a reading -/

/-- The first microsecond of a month. -/
def monthStart (k : Nat) : Nat := (monthFirst k - 1) * dayMicros

theorem monthFirst_pos (k : Nat) : 1 ≤ monthFirst k := Nat.le_add_left 1 _

theorem monthStart_strictMono : StrictMono monthStart := by
  intro j k hjk
  have hlt := monthFirst_strictMono hjk
  have hpos := monthFirst_pos j
  exact Nat.mul_lt_mul_of_pos_right (by omega) (by decide)

def Wall.month (w : Wall) : Nat := monthIndex w.calendar.year w.calendar.month

theorem Wall.calendar_date (w : Wall) : MonthDate w.calendar.year w.calendar.month w.calendar.day :=
  ord2ymd_date _

theorem Wall.mem_month (w : Wall) :
    monthStart w.month ≤ w.micros ∧ w.micros < monthStart (w.month + 1) := by
  have hday : ymd2ord w.calendar.year w.calendar.month w.calendar.day =
      w.micros / dayMicros + 1 := ymd2ord_ord2ymd (Nat.le_add_left 1 _)
  obtain ⟨hle, hlt⟩ := w.calendar_date.mem_month
  rw [hday] at hle hlt
  constructor
  · exact (Nat.le_div_iff_mul_le (by decide)).mp (Nat.sub_le_of_le_add hle)
  · exact (Nat.div_lt_iff_lt_mul (by decide)).mp (Nat.lt_sub_of_add_lt hlt)

theorem Wall.month_eq_iff {w : Wall} {k : Nat} :
    w.month = k ↔ monthStart k ≤ w.micros ∧ w.micros < monthStart (k + 1) := by
  constructor
  · rintro rfl
    exact w.mem_month
  · rintro ⟨hle, hlt⟩
    obtain ⟨hle', hlt'⟩ := w.mem_month
    have hfirst := monthStart_strictMono.lt_iff_lt.mp (hle'.trans_lt hlt)
    have hsecond := monthStart_strictMono.lt_iff_lt.mp (hle.trans_lt hlt')
    omega

/-- Two readings are in one month when they show the same year and month. -/
theorem Wall.month_eq_month_iff {u v : Wall} : u.month = v.month ↔
    u.calendar.year = v.calendar.year ∧ u.calendar.month = v.calendar.month := by
  obtain ⟨hyear, ⟨hpos, hle⟩, -, -⟩ := u.calendar_date
  obtain ⟨hyear', ⟨hpos', hle'⟩, -, -⟩ := v.calendar_date
  rw [Wall.month, Wall.month, monthIndex, monthIndex]
  omega

end SpineFormal
