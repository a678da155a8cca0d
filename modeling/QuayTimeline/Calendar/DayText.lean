import QuayTimeline.Calendar.Civil
import QuayTimeline.Text.Blank
import QuayTimeline.Text.Digits

/-! # Days in writing

A day is written `YYYY-MM-DD`; a year outside 0 to 9999 carries its sign and at
least four digits. Reading is more lenient: blanks may stand at both ends, before
each number and before each hyphen, a signed year may have any number of digits,
and month and day may have one digit. -/

namespace QuayTimeline

open Text

namespace CivilDate

/-- A year in at least four digits, with a sign when it lies outside 0 to 9999. -/
def yearText (year : Int) : List Char :=
  if 0 ≤ year ∧ year ≤ 9999 then paddedDigits 4 year.natAbs
  else (if year < 0 then '-' else '+') :: paddedDigits 4 year.natAbs

/-- Year, month and day of month, joined by hyphens. -/
def text (date : CivilDate) : List Char :=
  yearText date.year ++ '-' :: paddedDigits 2 date.month ++ '-' :: paddedDigits 2 date.dayOfMonth

/-- Takes one given character, after blanks, from the front of a text. -/
def takeMark? (mark : Char) : Reader Unit := fun cs =>
  takeChar? mark (trimStart cs)

/-- Takes a number of at most two digits, after blanks, from the front of a text. -/
def takeTwoDigits? : Reader Nat := fun cs =>
  takeDigitsUpTo? 2 (trimStart cs)

/-- Takes a year, after blanks, from the front of a text: up to four digits, or a
sign followed by any number of them. -/
def takeYear? : Reader Int := fun cs =>
  match trimStart cs with
  | '-' :: rest => (takeDigits? rest).map fun (n, rest) => (-(n : Int), rest)
  | '+' :: rest => (takeDigits? rest).map fun (n, rest) => ((n : Int), rest)
  | rest => (takeDigitsUpTo? 4 rest).map fun (n, rest) => ((n : Int), rest)

def take? : Reader CivilDate := fun cs => do
  let (year, cs) ← takeYear? cs
  let ((), cs) ← takeMark? '-' cs
  let (month, cs) ← takeTwoDigits? cs
  let ((), cs) ← takeMark? '-' cs
  let (dayOfMonth, cs) ← takeTwoDigits? cs
  return (⟨year, month, dayOfMonth⟩, cs)

end CivilDate

namespace Day

def text (d : Day) : List Char :=
  d.civil.text

/-- The day that a text names, if the text is a date and nothing else. -/
def read? (cs : List Char) : Option Day := do
  let (date, rest) ← CivilDate.take? cs
  if trimStart rest = [] then ofCivil? date else none

instance : ToString Day := ⟨fun d => String.ofList d.text⟩

end Day

end QuayTimeline
