import SpineFormal.Base.TextFields

/-!
# Reading ISO 8601

`datetime.fromisoformat` of Python 3.11: a calendar date or a week date, basic or
extended, any one character, a time of day to the hour at least, and an offset.
It reads back what `isoformat` writes, and much else.
-/

namespace SpineFormal

open Numerals
set_option autoImplicit false

deriving instance DecidableEq for Calendar

/-- `datetime(...)`: fields out of range are not the fields of any reading. -/
def Wall.ofFields (c : Calendar) : Option Wall := (ofCalendar c).filter fun w => w.calendar = c

theorem Wall.ofFields_calendar (w : Wall) : ofFields w.calendar = some w := by
  simp [ofFields, ofCalendar_calendar]

/-- A `datetime` with or without a timezone. -/
inductive DateTime where
  | naive (wall : Wall)
  | aware (a : Aware)

/-- `tzinfo=timezone(...)`: an offset is less than a day. -/
def Wall.withOffset (w : Wall) : Option Int → Option DateTime
  | none => some (.naive w)
  | some m => if h : m.natAbs < dayMicros then some (.aware ⟨w, m, h⟩) else none

theorem Wall.withOffset_zero (w : Wall) : w.withOffset (some 0) = some (.aware w.inUtc) := by
  have hzero : (0 : Int).natAbs < dayMicros := w.inUtc.offset_lt
  rw [withOffset, dif_pos hzero]
  rfl

/-- The weekday of the first of January, from Monday. -/
def newYearWeekday (year : Nat) : Nat := (ymd2ord year 1 1 + 6) % 7

/-- `_iso_to_ymd`. -/
def isoToYmd (year week day : Nat) : Option (Nat × Nat × Nat) :=
  let first := newYearWeekday year
  let monday := ymd2ord year 1 1 - first + if 3 < first then 7 else 0
  if 1 ≤ year ∧ (1 ≤ week ∧ week < 53 ∨
      week = 53 ∧ (first = 3 ∨ first = 2 ∧ isLeap year = true)) ∧ 1 ≤ day ∧ day ≤ 7 then
    some (ord2ymd (monday + (week - 1) * 7 + (day - 1)))
  else none

/-- `_find_isoformat_datetime_separator`: the length of the date. -/
def isoSeparator (s : List Char) : Nat :=
  if s.length = 7 then 7
  else if s[4]? = some '-' then
    if s[5]? = some 'W' then
      if s[8]? = some '-' ∧ ¬(s[10]?.any Char.isDigit) then 10 else 8
    else 10
  else if s[4]? = some 'W' then
    let digits := 7 + ((s.drop 7).takeWhile Char.isDigit).length
    if digits < 9 then digits else if digits % 2 = 0 then 7 else 8
  else 8

/-- `YYYY-MM-DD`, `YYYY-Www` or `YYYY-Www-D`, or the same without the dashes. -/
def isoDate (s : List Char) : Option (Nat × Nat × Nat) := do
  let (year, s) ← readFixed 10 4 0 s
  let dashed := s.head? = some '-'
  let s := if dashed then s.tail else s
  if s.head? = some 'W' then
    let (week, s) ← readFixed 10 2 0 s.tail
    if s = [] then isoToYmd year week 1
    else
      let s ← if dashed then expect '-' s else some s
      let (day, s) ← readFixed 10 1 0 s
      if s = [] then isoToYmd year week day else none
  else
    let (month, s) ← readFixed 10 2 0 s
    let s ← if dashed then expect '-' s else some s
    let (day, s) ← readFixed 10 2 0 s
    if s = [] then some (year, month, day) else none

/-- A time of day or an offset: hours, minutes, seconds and microseconds. -/
structure Clock where
  hour : Nat
  minute : Nat := 0
  second : Nat := 0
  microsecond : Nat := 0

/-- The digits of a second's fraction; those past the sixth are passed over. -/
def isoFraction (s : List Char) : Option Nat := do
  let width := min 6 s.length
  let (n, rest) ← readFixed 10 width 0 s
  if s ≠ [] ∧ rest.all Char.isDigit then some (n * 10 ^ (6 - width)) else none

/-- `HH[:MM[:SS[.ffffff]]]`, with all of the colons or none. -/
def isoClock (s : List Char) : Option Clock := do
  let (hour, s) ← readFixed 10 2 0 s
  if s = [] then return { hour }
  let colons := s.head? = some ':'
  let (minute, s) ← readFixed 10 2 0 (if colons then s.tail else s)
  if s = [] then return { hour, minute }
  let s ← if colons then expect ':' s else some s
  let (second, s) ← readFixed 10 2 0 s
  if s = [] then return { hour, minute, second }
  if s.head? = some '.' ∨ s.head? = some ',' then
    let microsecond ← isoFraction s.tail
    return { hour, minute, second, microsecond }
  else none

def Clock.micros (c : Clock) : Nat :=
  (c.hour * 3600 + c.minute * 60 + c.second) * 1000000 + c.microsecond

def zoneSign (c : Char) : Bool := c == '+' || c == '-' || c == 'Z'

/-- The offset: `Z`, or a sign and a clock. -/
def isoZone : List Char → Option (Option Int)
  | [] => some none
  | c :: s =>
    if c = 'Z' then (if s = [] then some (some 0) else none)
    else (isoClock s).map fun k => some ((if c = '-' then -1 else 1) * (k.micros : Int))

def isoTime (s : List Char) : Option (Clock × Option Int) := do
  let clock ← isoClock (s.takeWhile fun c => !zoneSign c)
  let offset ← isoZone (s.dropWhile fun c => !zoneSign c)
  return (clock, offset)

/-- The fields and the offset a text names, in range or not. -/
def isoParts (s : List Char) : Option (Calendar × Option Int) := do
  if s.length < 7 then none
  let n := isoSeparator s
  let (year, month, day) ← isoDate (s.take n)
  let time := s.drop n
  let (clock, offset) ← if time = [] then some (⟨0, 0, 0, 0⟩, none) else isoTime time.tail
  return (⟨year, month, day, clock.hour, clock.minute, clock.second, clock.microsecond⟩, offset)

/-- `datetime.fromisoformat`; `none` is `ValueError`. -/
def fromisoformat (s : List Char) : Option DateTime :=
  (isoParts s).bind fun p => (Wall.ofFields p.1).bind fun w => w.withOffset p.2

/-! ## Reading back what `isoformat` writes -/

theorem digit_ne {width n : Nat} {c d : Char} (hc : c ∈ fixed 10 width n) (hd : d.isDigit = false) :
    c ≠ d := by
  rintro rfl
  exact absurd (isDigit_of_mem_fixed c hc) (by simp [hd])

theorem fixed_two_cons (n : Nat) (s : List Char) :
    ∃ a b, fixed 10 2 n ++ s = a :: b :: s ∧ a.isDigit = true ∧ b.isDigit = true := by
  refine ⟨_, _, rfl, ?_, ?_⟩
  · exact @isDigit_of_mem_fixed 2 n _ (by simp [fixed])
  · exact @isDigit_of_mem_fixed 2 n _ (by simp [fixed])

namespace Calendar

/-- The date part of `isoformat`. -/
def dateText (c : Calendar) : List Char :=
  fixed 10 4 c.year ++ '-' :: (fixed 10 2 c.month ++ '-' :: fixed 10 2 c.day)

/-- The time part of `isoformat`. -/
def timeText (c : Calendar) : List Char :=
  fixed 10 2 c.hour ++ ':' :: (fixed 10 2 c.minute ++ ':' :: (fixed 10 2 c.second ++
    if c.microsecond = 0 then [] else '.' :: fixed 10 6 c.microsecond))

theorem isoformat_eq (c : Calendar) : c.isoformat = c.dateText ++ 'T' :: c.timeText := by
  simp [isoformat, dateText, timeText]

theorem dateText_length (c : Calendar) : c.dateText.length = 10 := by
  simp [dateText]

theorem isoSeparator_dateText (c : Calendar) (s : List Char) :
    isoSeparator (c.dateText ++ 'T' :: s) = 10 := by
  have hlen : (c.dateText ++ 'T' :: s).length ≠ 7 := by
    rw [List.length_append, dateText_length]
    omega
  have hdash : (c.dateText ++ 'T' :: s)[4]? = some '-' := by
    rw [dateText, List.append_assoc, List.getElem?_append_right (by simp)]
    simp
  have hmonth : (c.dateText ++ 'T' :: s)[5]? ≠ some 'W' := by
    obtain ⟨a, b, hab, ha, -⟩ := fixed_two_cons c.month ('-' :: fixed 10 2 c.day ++ 'T' :: s)
    rw [dateText, List.append_assoc, List.getElem?_append_right (by simp), fixed_length,
      List.cons_append, List.append_assoc, hab]
    intro hw
    obtain rfl : a = 'W' := by simpa using hw
    contradiction
  rw [isoSeparator, if_neg hlen, if_pos hdash, if_neg hmonth]

theorem isoDate_dateText {c : Calendar} (h : c.Fits) :
    isoDate c.dateText = some (c.year, c.month, c.day) := by
  have hday := readDecimal h.day []
  rw [List.append_nil] at hday
  have hw : (fixed 10 2 c.month ++ '-' :: fixed 10 2 c.day).head? ≠ some 'W' := by
    obtain ⟨a, b, hab, ha, -⟩ := fixed_two_cons c.month ('-' :: fixed 10 2 c.day)
    rw [hab]
    intro hw
    obtain rfl : a = 'W' := by simpa using hw
    contradiction
  simp only [isoDate, dateText, readDecimal h.year, Option.bind_eq_bind, Option.bind_some,
    List.head?_cons, List.tail_cons, if_true, if_neg hw, readDecimal h.month, expect, hday]

theorem isoFraction_fixed {n : Nat} (hn : n < 10 ^ 6) : isoFraction (fixed 10 6 n) = some n := by
  have hread := readDecimal hn []
  rw [List.append_nil] at hread
  have hne : fixed 10 6 n ≠ [] := by
    intro h
    simpa using congrArg List.length h
  have hand : fixed 10 6 n ≠ [] ∧ List.all [] Char.isDigit = true := ⟨hne, rfl⟩
  rw [isoFraction, fixed_length, Nat.min_self, hread, Option.bind_eq_bind, Option.bind_some]
  dsimp only
  rw [if_pos hand, Nat.sub_self, Nat.pow_zero, Nat.mul_one]

theorem isoClock_timeText {c : Calendar} (h : c.Fits) :
    isoClock c.timeText = some ⟨c.hour, c.minute, c.second, c.microsecond⟩ := by
  have hcolon : ∀ s, (fixed 10 2 c.second ++ s) ≠ [] := by
    intro s hs
    simpa using congrArg List.length hs
  simp only [isoClock, timeText, readDecimal h.hour, Option.bind_eq_bind, Option.bind_some,
    reduceCtorEq, if_false, List.head?_cons, List.tail_cons, if_true, readDecimal h.minute, expect,
    readDecimal h.second]
  by_cases h0 : c.microsecond = 0
  · simp [h0]
  · simp [h0, isoFraction_fixed h.microsecond]

theorem timeText_no_zone {c : Calendar} : ∀ x ∈ c.timeText, (!zoneSign x) = true := by
  intro x hx
  have hdigit : ∀ width n, x ∈ fixed 10 width n → (!zoneSign x) = true := by
    intro width n hn
    simp [zoneSign, digit_ne hn (show '+'.isDigit = false by rfl),
      digit_ne hn (show '-'.isDigit = false by rfl), digit_ne hn (show 'Z'.isDigit = false by rfl)]
  simp only [timeText, List.mem_append, List.mem_cons] at hx
  rcases hx with hx | rfl | hx | rfl | hx | hx
  · exact hdigit _ _ hx
  · rfl
  · exact hdigit _ _ hx
  · rfl
  · exact hdigit _ _ hx
  · split_ifs at hx
    · cases hx
    · rcases List.mem_cons.mp hx with rfl | hx
      · rfl
      · exact hdigit _ _ hx

/-- Besides its digits, `isoformat` of a naive reading has four signs. -/
theorem mem_isoformat {c : Calendar} {x : Char} (hx : x ∈ c.isoformat) :
    x.isDigit = true ∨ x ∈ ['-', 'T', ':', '.'] := by
  simp only [isoformat, List.mem_append, List.mem_cons] at hx
  rcases hx with hx | rfl | hx | rfl | hx | rfl | hx | rfl | hx | rfl | hx | hx
  · exact .inl (isDigit_of_mem_fixed x hx)
  · exact .inr (by simp)
  · exact .inl (isDigit_of_mem_fixed x hx)
  · exact .inr (by simp)
  · exact .inl (isDigit_of_mem_fixed x hx)
  · exact .inr (by simp)
  · exact .inl (isDigit_of_mem_fixed x hx)
  · exact .inr (by simp)
  · exact .inl (isDigit_of_mem_fixed x hx)
  · exact .inr (by simp)
  · exact .inl (isDigit_of_mem_fixed x hx)
  · split_ifs at hx
    · cases hx
    · rcases List.mem_cons.mp hx with rfl | hx
      · exact .inr (by simp)
      · exact .inl (isDigit_of_mem_fixed x hx)

end Calendar

theorem isoParts_isoformatUtc (w : Wall) : isoParts w.isoformatUtc = some (w.calendar, some 0) := by
  have htext : w.isoformatUtc =
      w.calendar.dateText ++ 'T' :: (w.calendar.timeText ++ "+00:00".toList) := by
    rw [Wall.isoformatUtc, Wall.isoformat, Calendar.isoformat_eq, List.append_assoc,
      List.cons_append]
  have hlong : ¬ w.isoformatUtc.length < 7 := by
    rw [htext, List.length_append, Calendar.dateText_length]
    omega
  have hsep : isoSeparator w.isoformatUtc = 10 := by
    rw [htext, Calendar.isoSeparator_dateText]
  have hdate : w.isoformatUtc.take 10 = w.calendar.dateText := by
    rw [htext, List.take_left' (Calendar.dateText_length _)]
  have htime : w.isoformatUtc.drop 10 = 'T' :: (w.calendar.timeText ++ "+00:00".toList) := by
    rw [htext, List.drop_left' (Calendar.dateText_length _)]
  have hzone : isoZone "+00:00".toList = some (some 0) := by decide
  have hread : isoTime (w.calendar.timeText ++ "+00:00".toList) =
      some (⟨w.calendar.hour, w.calendar.minute, w.calendar.second, w.calendar.microsecond⟩,
        some 0) := by
    rw [isoTime, List.takeWhile_append_of_pos Calendar.timeText_no_zone,
      List.dropWhile_append_of_pos Calendar.timeText_no_zone]
    have hstop : "+00:00".toList.takeWhile (fun c => !zoneSign c) = [] := rfl
    have hrest : "+00:00".toList.dropWhile (fun c => !zoneSign c) = "+00:00".toList := rfl
    rw [hstop, hrest, List.append_nil, Calendar.isoClock_timeText w.calendar_fits, hzone]
    rfl
  simp only [isoParts, if_neg hlong, hsep, hdate, htime, Calendar.isoDate_dateText w.calendar_fits,
    List.tail_cons, hread, Option.bind_eq_bind, Option.bind_some, reduceCtorEq, if_false,
    Option.pure_def]

theorem fromisoformat_isoformatUtc (w : Wall) :
    fromisoformat w.isoformatUtc = some (.aware w.inUtc) := by
  rw [fromisoformat, isoParts_isoformatUtc, Option.bind_some, Wall.ofFields_calendar,
    Option.bind_some, Wall.withOffset_zero]

end SpineFormal
