import Mathlib.Order.Basic
import SpineFormal.Base.Numerals

/-!
# Dates, times and identifiers as text

`datetime` over the proleptic Gregorian calendar, with the ordinal arithmetic of
CPython, `isoformat` and the JSON form pydantic writes; `UUID` in its canonical
form. A wall-clock reading is a bounded count of microseconds, so a calendar
field out of range cannot be written down, and every text is read back exactly.
-/

namespace SpineFormal

open Numerals
set_option autoImplicit false

/-! ## Ordinals -/

def daysBeforeMonthTable : List Nat := [0, 0, 31, 59, 90, 120, 151, 181, 212, 243, 273, 304, 334]

def daysInMonthTable : List Nat := [0, 31, 28, 31, 30, 31, 30, 31, 31, 30, 31, 30, 31]

def isLeap (year : Nat) : Bool := year % 4 == 0 && (year % 100 != 0 || year % 400 == 0)

def daysBeforeYear (year : Nat) : Nat :=
  (year - 1) * 365 + (year - 1) / 4 - (year - 1) / 100 + (year - 1) / 400

def daysBeforeMonth (leap : Bool) (month : Nat) : Nat :=
  daysBeforeMonthTable.getD month 0 + if 2 < month ∧ leap = true then 1 else 0

/-- `_ymd2ord`: day one is 0001-01-01. -/
def ymd2ord (year month day : Nat) : Nat :=
  daysBeforeYear year + daysBeforeMonth (isLeap year) month + day

/-- Month and day of the `n`-th day of a year, counted from zero. -/
def monthDay (leap : Bool) (n : Nat) : Nat × Nat :=
  let month := (n + 50) / 32
  let preceding := daysBeforeMonth leap month
  if n < preceding then
    let days := daysInMonthTable.getD (month - 1) 0 +
      if month - 1 = 2 ∧ leap = true then 1 else 0
    (month - 1, n - (preceding - days) + 1)
  else (month, n - preceding + 1)

/-- `_ord2ymd`: year, month and day of an ordinal. -/
def ord2ymd (ordinal : Nat) : Nat × Nat × Nat :=
  let n := ordinal - 1
  let n400 := n / 146097
  let n := n % 146097
  let n100 := n / 36524
  let n := n % 36524
  let n4 := n / 1461
  let n := n % 1461
  let n1 := n / 365
  let n := n % 365
  let year := n400 * 400 + 1 + n100 * 100 + n4 * 4 + n1
  if n1 = 4 ∨ n100 = 4 then (year - 1, 12, 31)
  else (year, monthDay (n1 == 3 && (n4 != 24 || n100 == 3)) n)

theorem monthDay_spec : ∀ (leap : Bool) (n : Nat), n < 365 →
    (1 ≤ (monthDay leap n).1 ∧ (monthDay leap n).1 ≤ 12) ∧ (monthDay leap n).2 ≤ 31 ∧
      daysBeforeMonth leap (monthDay leap n).1 + (monthDay leap n).2 = n + 1 := by
  have hall : ∀ leap : Bool, ∀ n < 365,
      (1 ≤ (monthDay leap n).1 ∧ (monthDay leap n).1 ≤ 12) ∧ (monthDay leap n).2 ≤ 31 ∧
        daysBeforeMonth leap (monthDay leap n).1 + (monthDay leap n).2 = n + 1 := by
    decide +kernel
  exact hall

/-- The cycle positions decide leap years. -/
theorem isLeap_cycle {n400 n100 n4 n1 : Nat} (h100 : n100 < 4) (h4 : n4 ≤ 24) (h1 : n1 < 4) :
    isLeap (n400 * 400 + 1 + n100 * 100 + n4 * 4 + n1) =
      (n1 == 3 && (n4 != 24 || n100 == 3)) := by
  rw [Bool.eq_iff_iff]
  simp only [isLeap, Bool.and_eq_true, Bool.or_eq_true, beq_iff_eq, bne_iff_ne, ne_eq]
  omega

theorem daysBeforeYear_cycle {n400 n100 n4 n1 : Nat} (h100 : n100 < 4) (h4 : n4 ≤ 24)
    (h1 : n1 < 4) :
    daysBeforeYear (n400 * 400 + 1 + n100 * 100 + n4 * 4 + n1) =
      n400 * 146097 + n100 * 36524 + n4 * 1461 + n1 * 365 := by
  have hy : n400 * 400 + 1 + n100 * 100 + n4 * 4 + n1 - 1 =
      n400 * 400 + n100 * 100 + n4 * 4 + n1 := by omega
  have hdiv4 : (n400 * 400 + n100 * 100 + n4 * 4 + n1) / 4 = n400 * 100 + n100 * 25 + n4 := by omega
  have hdiv100 : (n400 * 400 + n100 * 100 + n4 * 4 + n1) / 100 = n400 * 4 + n100 := by omega
  have hdiv400 : (n400 * 400 + n100 * 100 + n4 * 4 + n1) / 400 = n400 := by omega
  rw [daysBeforeYear, hy, hdiv4, hdiv100, hdiv400]
  omega

/-- The last day of a leap year that closes a cycle. -/
theorem ymd2ord_cycle_end (n400 : Nat) {n100 n4 : Nat} (h100 : n100 < 4) (h4 : n4 ≤ 24)
    (hleap : n4 ≠ 24 ∨ n100 = 3) :
    ymd2ord (n400 * 400 + 1 + n100 * 100 + n4 * 4 + 3) 12 31 =
      n400 * 146097 + n100 * 36524 + n4 * 1461 + 1461 := by
  have htrue : isLeap (n400 * 400 + 1 + n100 * 100 + n4 * 4 + 3) = true := by
    rw [isLeap_cycle h100 h4 (by decide)]
    simpa using hleap
  rw [ymd2ord, htrue, daysBeforeYear_cycle h100 h4 (by decide),
    show daysBeforeMonth true 12 = 335 by rfl]

theorem ymd2ord_ord2ymd {n : Nat} (hn : 1 ≤ n) :
    ymd2ord (ord2ymd n).1 (ord2ymd n).2.1 (ord2ymd n).2.2 = n := by
  unfold ord2ymd
  dsimp only
  generalize h400 : (n - 1) / 146097 = n400
  generalize ha : (n - 1) % 146097 = a
  generalize h100 : a / 36524 = n100
  generalize hb : a % 36524 = b
  generalize h4 : b / 1461 = n4
  generalize hc : b % 1461 = c
  generalize h1 : c / 365 = n1
  generalize hr : c % 365 = r
  have hsum : n = n400 * 146097 + n100 * 36524 + n4 * 1461 + n1 * 365 + r + 1 := by omega
  have hblt : b < 36524 := by omega
  have hclt : c < 1461 := by omega
  split_ifs with hlast
  · dsimp only
    by_cases h : n100 = 4
    · have hb0 : b = 0 := by omega
      obtain rfl : n4 = 0 := by omega
      obtain rfl : n1 = 0 := by omega
      have hend := ymd2ord_cycle_end n400 (show 3 < 4 by decide) (show 24 ≤ 24 by decide)
        (Or.inr rfl)
      rw [show n400 * 400 + 1 + n100 * 100 + 0 * 4 + 0 - 1 = n400 * 400 + 1 + 3 * 100 + 24 * 4 + 3 by
        omega, hend]
      omega
    · obtain rfl : n1 = 4 := hlast.resolve_right h
      have hn4 : n4 < 24 := by omega
      have hend := ymd2ord_cycle_end n400 (show n100 < 4 by omega) (show n4 ≤ 24 by omega)
        (Or.inl (by omega))
      rw [show n400 * 400 + 1 + n100 * 100 + n4 * 4 + 4 - 1 =
        n400 * 400 + 1 + n100 * 100 + n4 * 4 + 3 by omega, hend]
      omega
  · obtain ⟨_, _, hday⟩ := monthDay_spec (n1 == 3 && (n4 != 24 || n100 == 3)) r (by omega)
    dsimp only
    rw [ymd2ord, isLeap_cycle (by omega) (by omega) (by omega),
      daysBeforeYear_cycle (by omega) (by omega) (by omega)]
    omega

/-- `datetime.max.toordinal()`. -/
def maxOrdinal : Nat := 3652059

theorem ord2ymd_range {n : Nat} (hn : 1 ≤ n) (hmax : n ≤ maxOrdinal) :
    (ord2ymd n).1 < 10 ^ 4 ∧ (ord2ymd n).2.1 < 10 ^ 2 ∧ (ord2ymd n).2.2 < 10 ^ 2 := by
  unfold maxOrdinal at hmax
  unfold ord2ymd
  dsimp only
  generalize h400 : (n - 1) / 146097 = n400
  generalize ha : (n - 1) % 146097 = a
  generalize h100 : a / 36524 = n100
  generalize hb : a % 36524 = b
  generalize h4 : b / 1461 = n4
  generalize hc : b % 1461 = c
  generalize h1 : c / 365 = n1
  generalize hr : c % 365 = r
  have h400le : n400 ≤ 24 := by omega
  have hblt : b < 36524 := by omega
  have hclt : c < 1461 := by omega
  have hyear : n400 * 400 + 1 + n100 * 100 + n4 * 4 + n1 < 10 ^ 4 := by
    -- only the last cycles come near the bound
    by_cases h24 : n400 = 24
    · by_cases h3 : n100 = 3
      · by_cases h4 : n4 = 24 <;> omega
      · omega
    · omega
  split_ifs with hlast
  · dsimp only
    exact ⟨by omega, by decide, by decide⟩
  · obtain ⟨hm, hd, _⟩ := monthDay_spec (n1 == 3 && (n4 != 24 || n100 == 3)) r (by omega)
    dsimp only
    exact ⟨hyear, by omega, by omega⟩

/-! ## Calendar fields as text -/

/-- The fields of a naive `datetime`. -/
structure Calendar where
  year : Nat
  month : Nat
  day : Nat
  hour : Nat
  minute : Nat
  second : Nat
  microsecond : Nat

/-- Each field fits its fixed width. -/
structure Calendar.Fits (c : Calendar) : Prop where
  year : c.year < 10 ^ 4
  month : c.month < 10 ^ 2
  day : c.day < 10 ^ 2
  hour : c.hour < 10 ^ 2
  minute : c.minute < 10 ^ 2
  second : c.second < 10 ^ 2
  microsecond : c.microsecond < 10 ^ 6

/-- The date and time part of `isoformat`; a zero microsecond is left out. -/
def Calendar.isoformat (c : Calendar) : List Char :=
  fixed 10 4 c.year ++ '-' :: (fixed 10 2 c.month ++ '-' :: (fixed 10 2 c.day ++
    'T' :: (fixed 10 2 c.hour ++ ':' :: (fixed 10 2 c.minute ++ ':' :: (fixed 10 2 c.second ++
      if c.microsecond = 0 then [] else '.' :: fixed 10 6 c.microsecond)))))

def expect (c : Char) : List Char → Option (List Char)
  | [] => none
  | d :: s => if d = c then some s else none

/-- The optional fraction of a second, six digits. -/
def readFraction (s : List Char) : Option (Nat × List Char) :=
  match s with
  | '.' :: s => readFixed 10 6 0 s
  | s => some (0, s)

/-- Read a date and a time; what follows is left. -/
def Calendar.read (s : List Char) : Option (Calendar × List Char) := do
  let (year, s) ← readFixed 10 4 0 s
  let s ← expect '-' s
  let (month, s) ← readFixed 10 2 0 s
  let s ← expect '-' s
  let (day, s) ← readFixed 10 2 0 s
  let s ← expect 'T' s
  let (hour, s) ← readFixed 10 2 0 s
  let s ← expect ':' s
  let (minute, s) ← readFixed 10 2 0 s
  let s ← expect ':' s
  let (second, s) ← readFixed 10 2 0 s
  let (microsecond, s) ← readFraction s
  return (⟨year, month, day, hour, minute, second, microsecond⟩, s)

theorem readDecimal {width n : Nat} (hn : n < 10 ^ width) (s : List Char) :
    readFixed 10 width 0 (fixed 10 width n ++ s) = some (n, s) :=
  readFixed_fixed (by decide) (by decide) width n s hn

theorem readFraction_append {n : Nat} (hn : n < 10 ^ 6) {s : List Char}
    (hs : ∀ c ∈ s.head?, c ≠ '.') :
    readFraction ((if n = 0 then [] else '.' :: fixed 10 6 n) ++ s) = some (n, s) := by
  split_ifs with h0
  · subst h0
    cases s with
    | nil => rfl
    | cons c s =>
      have hc := hs c rfl
      simp [readFraction, hc]
  · exact readDecimal hn s

theorem Calendar.read_isoformat {c : Calendar} (hc : c.Fits) {s : List Char}
    (hs : ∀ x ∈ s.head?, x ≠ '.') : read (c.isoformat ++ s) = some (c, s) := by
  simp only [read, isoformat, List.append_assoc, List.cons_append, Option.bind_eq_bind,
    readDecimal hc.year, readDecimal hc.month, readDecimal hc.day, readDecimal hc.hour,
    readDecimal hc.minute, readDecimal hc.second, readFraction_append hc.microsecond hs, expect,
    if_true, Option.bind_some, Option.pure_def]

/-! ## Wall-clock readings -/

def dayMicros : Nat := 86400000000

/-- Number of microseconds in the years 1 to 9999. -/
def maxWall : Nat := maxOrdinal * dayMicros

/-- A calendar date with a time of day: microseconds since 0001-01-01T00:00:00. -/
structure Wall where
  micros : Nat
  micros_lt : micros < maxWall
  deriving DecidableEq

theorem one_lt_maxWall : 1 < maxWall := by decide

theorem zero_lt_maxWall : 0 < maxWall := Nat.lt_of_succ_lt one_lt_maxWall

theorem noonMay18_lt_maxWall : 63914702400000000 < maxWall := by decide

theorem Wall.micros_injective : Function.Injective Wall.micros := by
  rintro ⟨a, ha⟩ ⟨b, hb⟩ (rfl : a = b)
  rfl

instance : LinearOrder Wall := LinearOrder.lift' Wall.micros Wall.micros_injective

def Wall.calendar (w : Wall) : Calendar :=
  let date := ord2ymd (w.micros / dayMicros + 1)
  let time := w.micros % dayMicros
  ⟨date.1, date.2.1, date.2.2, time / 3600000000, time / 60000000 % 60, time / 1000000 % 60,
    time % 1000000⟩

/-- `datetime(...)`; `none` when the date is out of range. -/
def Wall.ofCalendar (c : Calendar) : Option Wall :=
  let n := (ymd2ord c.year c.month c.day - 1) * dayMicros +
    (c.hour * 3600000000 + c.minute * 60000000 + c.second * 1000000 + c.microsecond)
  if h : n < maxWall then some ⟨n, h⟩ else none

theorem timeOfDay_sum (r : Nat) :
    r / 3600000000 * 3600000000 + r / 60000000 % 60 * 60000000 + r / 1000000 % 60 * 1000000 +
      r % 1000000 = r := by
  have hmin : r / 3600000000 = r / 60000000 / 60 := by omega
  have hsec : r / 60000000 = r / 1000000 / 60 := by omega
  omega

theorem Wall.ofCalendar_calendar (w : Wall) : ofCalendar w.calendar = some w := by
  have hsum : (ymd2ord w.calendar.year w.calendar.month w.calendar.day - 1) * dayMicros +
      (w.calendar.hour * 3600000000 + w.calendar.minute * 60000000 +
        w.calendar.second * 1000000 + w.calendar.microsecond) = w.micros := by
    simp only [calendar, timeOfDay_sum, ymd2ord_ord2ymd (Nat.le_add_left 1 _), Nat.add_sub_cancel]
    rw [Nat.mul_comm, Nat.div_add_mod]
  simp only [ofCalendar, hsum, w.micros_lt, dif_pos]

theorem Wall.ordinal_le (w : Wall) : w.micros / dayMicros + 1 ≤ maxOrdinal :=
  Nat.div_lt_of_lt_mul (Nat.mul_comm maxOrdinal dayMicros ▸ w.micros_lt)

theorem Wall.calendar_fits (w : Wall) : w.calendar.Fits := by
  obtain ⟨hy, hm, hd⟩ := ord2ymd_range (Nat.le_add_left 1 _) w.ordinal_le
  have htime : w.micros % dayMicros < dayMicros := Nat.mod_lt _ (by decide)
  generalize hr : w.micros % dayMicros = r at htime
  unfold dayMicros at htime
  constructor
  · exact hy
  · exact hm
  · exact hd
  all_goals
    simp only [calendar, hr]
    omega

def Wall.isoformat (w : Wall) : List Char := w.calendar.isoformat

/-- `astimezone(timezone.utc).isoformat()` of an instant. -/
def Wall.isoformatUtc (w : Wall) : List Char := w.isoformat ++ "+00:00".toList

def Wall.read (s : List Char) : Option (Wall × List Char) :=
  (Calendar.read s).bind fun p => (ofCalendar p.1).map fun w => (w, p.2)

theorem Wall.read_isoformat (w : Wall) {s : List Char} (hs : ∀ c ∈ s.head?, c ≠ '.') :
    read (w.isoformat ++ s) = some (w, s) := by
  rw [read, isoformat, Calendar.read_isoformat w.calendar_fits hs, Option.bind_some,
    ofCalendar_calendar, Option.map_some]

/-- A timezone-aware `datetime`: a wall clock and its offset in microseconds. -/
structure Aware where
  wall : Wall
  offset : Int
  offset_lt : offset.natAbs < dayMicros

/-- The instant, on the UTC clock; near the ends of the calendar it may have no date. -/
def Aware.utc (a : Aware) : Int := a.wall.micros - a.offset

/-- `astimezone(timezone.utc)`; `none` is `OverflowError`. -/
def Aware.astimezoneUtc (a : Aware) : Option Wall :=
  if h : 0 ≤ a.utc ∧ a.utc.toNat < maxWall then some ⟨a.utc.toNat, h.2⟩ else none

theorem Aware.astimezoneUtc_micros {a : Aware} {w : Wall} (h : a.astimezoneUtc = some w) :
    (w.micros : Int) = a.utc := by
  unfold astimezoneUtc at h
  split at h
  · rename_i hrange
    obtain rfl := Option.some.inj h
    exact Int.toNat_of_nonneg hrange.1
  · contradiction

/-- `utcoffset` as `isoformat` writes it: `±HH:MM`, with seconds and microseconds if any. -/
def offsetText (offset : Int) : List Char :=
  let n := offset.natAbs
  (if offset < 0 then '-' else '+') :: (fixed 10 2 (n / 3600000000) ++
    ':' :: (fixed 10 2 (n / 60000000 % 60) ++
      if n % 60000000 = 0 then []
      else ':' :: (fixed 10 2 (n / 1000000 % 60) ++
        if n % 1000000 = 0 then [] else '.' :: fixed 10 6 (n % 1000000))))

def Aware.isoformat (a : Aware) : List Char := a.wall.isoformat ++ offsetText a.offset

/-- A reading of the UTC clock as a `datetime`. -/
def Wall.inUtc (w : Wall) : Aware := ⟨w, 0, by decide⟩

theorem Aware.astimezoneUtc_of_utc {a : Aware} {w : Wall} (h : a.utc = w.micros) :
    a.astimezoneUtc = some w := by
  have hnat : a.utc.toNat = w.micros := by rw [h, Int.toNat_natCast]
  rw [astimezoneUtc, dif_pos ⟨h ▸ Int.natCast_nonneg _, hnat ▸ w.micros_lt⟩]
  simp only [hnat]

theorem Wall.astimezoneUtc_inUtc (w : Wall) : w.inUtc.astimezoneUtc = some w :=
  Aware.astimezoneUtc_of_utc (by simp [Aware.utc, inUtc])

/-- A `datetime` whose offset, if any, is a whole number of minutes: what the
JSON form can carry. -/
structure Timestamp where
  wall : Wall
  offset : Option Int
  offset_lt : ∀ m ∈ offset, m.natAbs < 1440
  deriving DecidableEq

theorem utcOffset_lt : ∀ m ∈ some (0 : Int), m.natAbs < 1440 := by simp

def zoneText : Option Int → List Char
  | none => []
  | some m =>
    if m = 0 then ['Z']
    else (if m < 0 then '-' else '+') ::
      (fixed 10 2 (m.natAbs / 60) ++ ':' :: fixed 10 2 (m.natAbs % 60))

/-- The string `model_dump(mode="json")` gives for a `datetime`. -/
def Timestamp.text (t : Timestamp) : List Char := t.wall.isoformat ++ zoneText t.offset

def readOffset (neg : Bool) (s : List Char) : Option Int := do
  let (hours, s) ← readFixed 10 2 0 s
  let s ← expect ':' s
  let (minutes, s) ← readFixed 10 2 0 s
  if s = [] then return (if neg then -1 else 1) * (hours * 60 + minutes : Nat) else none

def readZone : List Char → Option (Option Int)
  | [] => some none
  | c :: s =>
    if c = 'Z' then (if s = [] then some (some 0) else none)
    else if c = '+' then (readOffset false s).map some
    else if c = '-' then (readOffset true s).map some
    else none

def Timestamp.ofParts (wall : Wall) (offset : Option Int) : Option Timestamp :=
  if h : ∀ m ∈ offset, m.natAbs < 1440 then some ⟨wall, offset, h⟩ else none

def Timestamp.read (s : List Char) : Option Timestamp :=
  (Wall.read s).bind fun p => (readZone p.2).bind (ofParts p.1)

theorem readOffset_text (neg : Bool) {n : Nat} (hn : n < 6000) :
    readOffset neg (fixed 10 2 (n / 60) ++ ':' :: fixed 10 2 (n % 60)) =
      some ((if neg then -1 else 1) * (n : Int)) := by
  have hh : n / 60 < 10 ^ 2 := by omega
  have hm : n % 60 < 10 ^ 2 := by omega
  have hlast := readDecimal hm []
  rw [List.append_nil] at hlast
  have hsum : n / 60 * 60 + n % 60 = n := by omega
  simp only [readOffset, readDecimal hh, expect, hlast, hsum, Option.bind_eq_bind, Option.bind_some,
    if_true, Option.pure_def]

theorem readZone_zoneText {offset : Option Int} (h : ∀ m ∈ offset, m.natAbs < 1440) :
    readZone (zoneText offset) = some offset := by
  cases offset with
  | none => rfl
  | some m =>
    have hm : m.natAbs < 6000 := Nat.lt_trans (h m rfl) (by decide)
    simp only [zoneText]
    split_ifs with h0 hneg
    · simp [readZone, h0]
    · have hval : (-1 : Int) * (m.natAbs : Int) = m := by omega
      have hread := readOffset_text true hm
      rw [if_pos rfl, hval] at hread
      simp [readZone, hread]
    · have hval : (m.natAbs : Int) = m := by omega
      simp [readZone, readOffset_text false hm, hval]

theorem zoneText_head (offset : Option Int) : ∀ c ∈ (zoneText offset).head?, c ≠ '.' := by
  cases offset with
  | none => simp [zoneText]
  | some m =>
    simp only [zoneText]
    split_ifs <;> simp

theorem Timestamp.read_text (t : Timestamp) : read t.text = some t := by
  rw [read, text, t.wall.read_isoformat (zoneText_head t.offset), Option.bind_some,
    readZone_zoneText t.offset_lt, Option.bind_some, ofParts, dif_pos t.offset_lt]

/-! ## Identifiers -/

/-- `UUID.fields`, with the two clock bytes as one number. -/
structure Uuid where
  timeLow : Fin (2 ^ 32)
  timeMid : Fin (2 ^ 16)
  timeHiVersion : Fin (2 ^ 16)
  clockSeq : Fin (2 ^ 16)
  node : Fin (2 ^ 48)
  deriving DecidableEq

instance neZero_timeLow : NeZero (2 ^ 32) := ⟨by decide⟩

instance neZero_timeMid : NeZero (2 ^ 16) := ⟨by decide⟩

instance neZero_node : NeZero (2 ^ 48) := ⟨by decide⟩

/-- `str(uuid)`. -/
def Uuid.text (u : Uuid) : List Char :=
  fixed 16 8 u.timeLow ++ '-' :: (fixed 16 4 u.timeMid ++ '-' :: (fixed 16 4 u.timeHiVersion ++
    '-' :: (fixed 16 4 u.clockSeq ++ '-' :: fixed 16 12 u.node)))

def Uuid.ofFields (a b c d e : Nat) : Option Uuid :=
  if h : a < 2 ^ 32 ∧ b < 2 ^ 16 ∧ c < 2 ^ 16 ∧ d < 2 ^ 16 ∧ e < 2 ^ 48 then
    some ⟨⟨a, h.1⟩, ⟨b, h.2.1⟩, ⟨c, h.2.2.1⟩, ⟨d, h.2.2.2.1⟩, ⟨e, h.2.2.2.2⟩⟩
  else none

def Uuid.read (s : List Char) : Option Uuid := do
  let (a, s) ← readFixed 16 8 0 s
  let s ← expect '-' s
  let (b, s) ← readFixed 16 4 0 s
  let s ← expect '-' s
  let (c, s) ← readFixed 16 4 0 s
  let s ← expect '-' s
  let (d, s) ← readFixed 16 4 0 s
  let s ← expect '-' s
  let (e, s) ← readFixed 16 12 0 s
  if s = [] then ofFields a b c d e else none

theorem readHex (width : Nat) {bits n : Nat} (hbits : bits = 4 * width) (hn : n < 2 ^ bits) (s : List Char) :
    readFixed 16 width 0 (fixed 16 width n ++ s) = some (n, s) := by
  have hpow : (16 : Nat) ^ width = 2 ^ bits := by
    rw [hbits, Nat.pow_mul]
  exact readFixed_fixed (by decide) (by decide) width n s (hpow ▸ hn)

theorem Uuid.ofFields_fields (u : Uuid) :
    ofFields u.timeLow u.timeMid u.timeHiVersion u.clockSeq u.node = some u := by
  rw [ofFields, dif_pos ⟨u.timeLow.2, u.timeMid.2, u.timeHiVersion.2, u.clockSeq.2, u.node.2⟩]

theorem Uuid.read_text (u : Uuid) : read u.text = some u := by
  have hlast := readHex 12 rfl u.node.2 []
  rw [List.append_nil] at hlast
  simp only [read, text, Option.bind_eq_bind, expect, if_true,
    readHex 8 rfl u.timeLow.2, readHex 4 rfl u.timeMid.2,
    readHex 4 rfl u.timeHiVersion.2, readHex 4 rfl u.clockSeq.2, hlast,
    Option.bind_some, ofFields_fields]

end SpineFormal
