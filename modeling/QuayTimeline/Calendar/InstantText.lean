import QuayTimeline.Calendar.DayText
import QuayTimeline.Calendar.Instant

/-! # Instants in writing

An instant is written in universal time, as date, `T`, clock time, the fewest of
0, 3, 6 or 9 fraction digits that suffice, and `Z`. Reading also accepts other
offsets, blanks and short numbers, and drops what a fraction holds beyond
nanoseconds. -/

namespace QuayTimeline

open Text

/-- A time of day as a clock shows it; a leap second has second 60. -/
structure ClockTime where
  hour : Nat
  minute : Nat
  second : Nat
  nano : Nat
deriving DecidableEq, Repr

namespace ClockTime

/-- The digits after the point, none for a whole second. -/
def fractionText (nano : Nat) : List Char :=
  if nano = 0 then []
  else if nano % 1000000 = 0 then '.' :: paddedDigits 3 (nano / 1000000)
  else if nano % 1000 = 0 then '.' :: paddedDigits 6 (nano / 1000)
  else '.' :: paddedDigits 9 nano

/-- Hour, minute and second in two digits each, and the fraction. -/
def text (time : ClockTime) : List Char :=
  paddedDigits 2 time.hour ++ ':' :: paddedDigits 2 time.minute ++ ':' :: paddedDigits 2 time.second
    ++ fractionText time.nano

/-- Takes the fraction of a second, in nanoseconds: a point and digits, of which the
first nine count. Without a point the fraction is zero. -/
def takeFraction? : Reader Nat := fun cs =>
  match cs with
  | '.' :: rest =>
    match rest.takeWhile Char.isDigit with
    | [] => none
    | d :: ds =>
      let kept := (d :: ds).take 9
      some (digitsValue kept * Nat.pow 10 (9 - kept.length), rest.dropWhile Char.isDigit)
  | rest => some (0, rest)

def take? : Reader ClockTime := fun cs => do
  let (hour, cs) ← CivilDate.takeTwoDigits? cs
  let ((), cs) ← CivilDate.takeMark? ':' cs
  let (minute, cs) ← CivilDate.takeTwoDigits? cs
  let ((), cs) ← CivilDate.takeMark? ':' cs
  let (second, cs) ← CivilDate.takeTwoDigits? cs
  let (nano, cs) ← takeFraction? cs
  if hour < 24 ∧ minute < 60 ∧ second ≤ 60 then
    some (⟨hour, minute, second, nano⟩, cs)
  else none

/-- The seconds passed in the day; a leap second counts as the second before it. -/
def secondOfDay (time : ClockTime) : Nat :=
  time.hour * 3600 + time.minute * 60 + min time.second 59

/-- The nanoseconds passed in that second. -/
def nanoOfSecond (time : ClockTime) : Nat :=
  if time.second = 60 then nanosPerSecond + time.nano else time.nano

end ClockTime

namespace Instant

/-- What the universal clock shows at an instant. -/
def clockTime (t : Instant) : ClockTime where
  hour := t.secondOfDay / 3600
  minute := t.secondOfDay / 60 % 60
  second := t.secondOfDay % 60 + t.nano / nanosPerSecond
  nano := t.nano % nanosPerSecond

def text (t : Instant) : List Char :=
  t.day.text ++ 'T' :: t.clockTime.text ++ ['Z']

/-- A character that may stand between the hours and the minutes of an offset. -/
def isOffsetGap (c : Char) : Bool :=
  c = ':' || isBlank c

/-- The sign of an offset: plus east of the meridian, a hyphen or a minus sign west of it. -/
def offsetSign? (c : Char) : Option Int :=
  if c = '+' then some 1 else if c = '-' ∨ c = '\u2212' then some (-1) else none

/-- Takes two digits from the front of a text, not fewer. -/
def takeDigitPair? : Reader Nat
  | c :: d :: rest =>
    if c.isDigit ∧ d.isDigit then some (digitsValue [c, d], rest) else none
  | _ => none

/-- Takes an offset in seconds: a sign, two digits of hours and two of minutes, which
must be below sixty. -/
def takeSignedOffset? : Reader Int := fun cs =>
  match cs with
  | [] => none
  | c :: rest => do
    let sign ← offsetSign? c
    let (hours, rest) ← takeDigitPair? rest
    let (minutes, rest) ← takeDigitPair? (rest.dropWhile isOffsetGap)
    if minutes < 60 then some (sign * (hours * 3600 + minutes * 60 : Nat), rest) else none

/-- Takes an offset in seconds east of the meridian: `UTC`, `Z` in either case, or a
signed offset. -/
def takeOffset? : Reader Int := fun cs =>
  if (cs.take 3).map Char.toUpper = ['U', 'T', 'C'] then some (0, cs.drop 3)
  else match cs with
    | 'Z' :: rest => some (0, rest)
    | 'z' :: rest => some (0, rest)
    | _ => takeSignedOffset? cs

/-- Takes the one character between date and time of day. -/
def takeSeparator? : Reader Unit
  | c :: rest => if c = 'T' ∨ c = 't' ∨ c = ' ' then some ((), rest) else none
  | [] => none

/-- The instant at which a clock, ahead of the universal one by an offset smaller than
a day, shows a date and time. -/
def ofLocal? (date : CivilDate) (time : ClockTime) (offset : Int) : Option Instant := do
  let day ← Day.ofCivil? date
  if offset.natAbs < 86400 then
    of? (day.number * secondsPerDay + time.secondOfDay - offset) time.nanoOfSecond
  else none

/-- The instant that a text names, if the text is an instant and nothing else. -/
def read? (cs : List Char) : Option Instant := do
  let (date, cs) ← CivilDate.take? cs
  let ((), cs) ← takeSeparator? cs
  let (time, cs) ← ClockTime.take? cs
  let (offset, cs) ← takeOffset? (trimStart cs)
  if trimStart cs = [] then ofLocal? date time offset else none

end Instant

end QuayTimeline
