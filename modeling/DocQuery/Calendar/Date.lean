/-!
# DocQuery.Calendar.Date

The days of the proleptic Gregorian calendar, numbered from 1 January 1970, for
the years from -262143 to 262142. A date is its day number, which lies within that
range; year, month and day are read off it (`Date.civil`) and determine it again
(`dayNumber`).
-/

namespace DocQuery

/-- A day given by year, month and day of the month. -/
structure Civil where
  year : Int
  month : Nat
  day : Nat
deriving DecidableEq, Repr

namespace Calendar

/-- Leap years: every fourth, but of the full centuries only every fourth. -/
def isLeap (year : Int) : Bool :=
  year % 4 == 0 && (year % 100 != 0 || year % 400 == 0)

/-- The number of days of a month. -/
def monthLength (year : Int) (month : Nat) : Nat :=
  match month with
  | 2 => if isLeap year then 29 else 28
  | 4 | 6 | 9 | 11 => 30
  | _ => 31

/-- The days from 1 January of year 1 to 1 January of this year. -/
def daysBeforeYear (year : Int) : Int :=
  let past := year - 1
  365 * past + past / 4 - past / 100 + past / 400

/-- The days of a year before the first of a month. -/
def daysBeforeMonth (year : Int) (month : Nat) : Nat :=
  (List.range' 1 (month - 1)).foldl (fun days m => days + monthLength year m) 0

/-- The days from 1 January of year 1 to 1 January 1970. -/
def epochDays : Int := 719162

/-- The number of a day, counted from 1 January 1970. -/
def dayNumber (c : Civil) : Int :=
  daysBeforeYear c.year + daysBeforeMonth c.year c.month + (c.day - 1) - epochDays

/-- The month and the day of the month of a day given by the number of days before
it, counted from the first of `month`; at most `more` further months are tried. -/
def monthAndDay (year : Int) (month : Nat) : (more : Nat) → (past : Nat) → Nat × Nat
  | 0, past => (month, past + 1)
  | more + 1, past =>
    if past < monthLength year month then (month, past + 1)
    else monthAndDay year (month + 1) more (past - monthLength year month)

/-- The year, month and day with this number. The days since year 1 are split
into spans of 400, 100, 4 years and one year; the last span of 100 years and the
last single year of a span may be a day longer than the others. -/
def ofDayNumber (n : Int) : Civil :=
  let days := n + epochDays
  let inCycle := days % 146097
  let century := min 3 (inCycle / 36524)
  let inCentury := inCycle - century * 36524
  let inQuad := inCentury % 1461
  let single := min 3 (inQuad / 365)
  let year := 1 + 400 * (days / 146097) + 100 * century + 4 * (inCentury / 1461) + single
  let (month, day) := monthAndDay year 1 11 (inQuad - single * 365).toNat
  ⟨year, month, day⟩

/-- The first and the last year of the calendar. -/
def firstYear : Int := -262143
@[inherit_doc firstYear] def lastYear : Int := 262142

/-- The number of the first day of the calendar. -/
def firstDay : Int := daysBeforeYear firstYear - epochDays

/-- The number of the last day of the calendar. -/
def lastDay : Int := daysBeforeYear (lastYear + 1) - 1 - epochDays

/-- The year lies within the calendar. -/
abbrev InYears (year : Int) : Prop := firstYear ≤ year ∧ year ≤ lastYear

/-- There is such a day in the calendar. -/
abbrev Civil.IsDay (c : Civil) : Prop :=
  InYears c.year ∧ 1 ≤ c.month ∧ c.month ≤ 12 ∧ 1 ≤ c.day ∧ c.day ≤ monthLength c.year c.month

end Calendar

/-- A day of the calendar. -/
structure Date where
  number : Int
  first_le : Calendar.firstDay ≤ number
  le_last : number ≤ Calendar.lastDay
deriving DecidableEq, Repr

namespace Date

/-- The first day of 1970. -/
def epoch : Date := ⟨0, by decide, by decide⟩

/-- The day with this number, if the calendar reaches that far. -/
def ofNumber? (n : Int) : Option Date :=
  if h : Calendar.firstDay ≤ n ∧ n ≤ Calendar.lastDay then some ⟨n, h.1, h.2⟩ else none

/-- The day with this year, month and day of the month, if there is one. -/
def ofCivil? (c : Civil) : Option Date :=
  if Calendar.Civil.IsDay c then ofNumber? (Calendar.dayNumber c) else none

/-- Year, month and day of the month. -/
def civil (d : Date) : Civil := Calendar.ofDayNumber d.number

/-- The day a number of months later, or earlier. Where the month is too short for
the day of the month, its last day is taken. -/
def addMonths? (d : Date) (months : Int) : Option Date :=
  let c := d.civil
  let total := c.year * 12 + (c.month - 1 : Nat) + months
  let year := total / 12
  let month := (total % 12).toNat + 1
  ofCivil? ⟨year, month, min c.day (Calendar.monthLength year month)⟩

end Date

end DocQuery
