import QuayTimeline.Calendar.Day

/-! # Civil dates

Year, month and day of month in the Gregorian calendar, extended to all years
with a year 0, and the day that such a date names. Days are counted from
1 January of the year 0; a year starts after `365` days for every year before it
and one more for every leap year. -/

namespace QuayTimeline

/-- A year, a month counted from 1 and a day of the month counted from 1. -/
structure CivilDate where
  year : Int
  month : Nat
  dayOfMonth : Nat
deriving DecidableEq, Repr

namespace CivilDate

/-- Every fourth year is a leap year, of the centuries only every fourth. -/
def isLeapYear (year : Int) : Bool :=
  year % 4 = 0 && (year % 100 ≠ 0 || year % 400 = 0)

/-- The number of days from 1 January of the year 0 to 1 January of a year. -/
def daysBeforeYear (year : Int) : Int :=
  365 * year + (year + 3) / 4 - (year + 99) / 100 + (year + 399) / 400

def monthLengths (leap : Bool) : List Nat :=
  [31, if leap then 29 else 28, 31, 30, 31, 30, 31, 31, 30, 31, 30, 31]

/-- The number of days of a year before a month counted from 1. -/
def daysBeforeMonth (leap : Bool) (month : Nat) : Nat :=
  ((monthLengths leap).take (month - 1)).foldr (· + ·) 0

/-- The length of a month counted from 1; other months have no day. -/
def monthLength (leap : Bool) (month : Nat) : Nat :=
  if month = 0 then 0 else (monthLengths leap).getD (month - 1) 0

/-- A date exists when its month is one of twelve and its day is in that month. -/
def Exists (date : CivilDate) : Prop :=
  1 ≤ date.dayOfMonth ∧ date.dayOfMonth ≤ monthLength (isLeapYear date.year) date.month

instance (date : CivilDate) : Decidable date.Exists :=
  inferInstanceAs (Decidable (_ ∧ _))

/-- The number of 1 January 1970, counted from 1 January of the year 0. -/
def epochOffset : Int := 719528

/-- The number of the day that a date names, counted from 1 January 1970. -/
def dayNumber (date : CivilDate) : Int :=
  daysBeforeYear date.year + daysBeforeMonth (isLeapYear date.year) date.month
    + (date.dayOfMonth - 1 : Nat) - epochOffset

/-- The year that holds a day counted from 1 January of the year 0. An average
year is too short or too long by less than two days per century of its position
in a cycle of 400 years, so the quotient is off by one year at most. -/
def yearOf (n : Int) : Int :=
  -- 400 years have 146097 days.
  let guess := 400 * n / 146097
  if n < daysBeforeYear guess then guess - 1
  else if daysBeforeYear (guess + 1) ≤ n then guess + 1
  else guess

/-- Splits a day of the year, counted from 0, into month and day of month. -/
def monthAndDay : List Nat → Nat → Nat → Nat × Nat
  | [], month, n => (month, n + 1)
  | length :: lengths, month, n =>
    if n < length then (month, n + 1) else monthAndDay lengths (month + 1) (n - length)

/-- The date of a day counted from 1 January of the year 0. -/
def ofDaysFromYearZero (n : Int) : CivilDate :=
  let year := yearOf n
  let (month, dayOfMonth) :=
    monthAndDay (monthLengths (isLeapYear year)) 1 (n - daysBeforeYear year).toNat
  ⟨year, month, dayOfMonth⟩

end CivilDate

namespace Day

def civil (d : Day) : CivilDate :=
  CivilDate.ofDaysFromYearZero (d.number + CivilDate.epochOffset)

/-- The day that a date names, when the date exists and the day is representable. -/
def ofCivil? (date : CivilDate) : Option Day :=
  if date.Exists then ofNumber? date.dayNumber else none

end Day

end QuayTimeline
