import QuayTimeline.Calendar.DayText
import QuayTimeline.Proofs.Calendar.Civil
import QuayTimeline.Proofs.Text.Digits

/-! # Days read back

The text of a day is read as that day. Its parts are padded to the width that the lenient reader
takes at most, or end where a hyphen follows. -/

namespace QuayTimeline

open Text

namespace CivilDate

theorem isBlank_hyphen : isBlank '-' = false := by decide

theorem isBlank_colon : isBlank ':' = false := by decide

theorem takeMark?_cons {mark : Char} (visible : isBlank mark = false) (rest : List Char) :
    takeMark? mark (mark :: rest) = some ((), rest) := by
  simp [takeMark?, trimStart_cons_of_not_blank visible, takeChar?]

theorem stops_isBlank_paddedDigits (width n : Nat) (rest : List Char) :
    Stops isBlank (paddedDigits width n ++ rest) := by
  obtain ⟨d, ds, split, digit⟩ := exists_paddedDigits_eq_cons width n
  rw [split, List.cons_append, stops_cons]
  exact isBlank_of_isDigit digit

theorem takeTwoDigits?_paddedDigits {n : Nat} (bound : n < 100) (rest : List Char) :
    takeTwoDigits? (paddedDigits 2 n ++ rest) = some (n, rest) := by
  rw [takeTwoDigits?, (stops_isBlank_paddedDigits 2 n rest).trimStart]
  exact takeDigitsUpTo?_paddedDigits (by decide) bound rest

/-- Without a sign a year has up to four digits. -/
theorem takeYear?_of_isDigit {d : Char} (digit : d.isDigit = true) (cs : List Char) :
    takeYear? (d :: cs) = (takeDigitsUpTo? 4 (d :: cs)).map fun (n, rest) => ((n : Int), rest) := by
  rw [takeYear?, trimStart_cons_of_not_blank (isBlank_of_isDigit digit)]
  split
  next same => exact absurd (List.cons.inj same).1 (ne_of_isDigit digit (by decide))
  next same => exact absurd (List.cons.inj same).1 (ne_of_isDigit digit (by decide))
  next => rfl

/-- A year is read up to the hyphen after it. -/
theorem takeYear?_yearText (year : Int) (rest : List Char) :
    takeYear? (yearText year ++ '-' :: rest) = some (year, '-' :: rest) := by
  have signed : takeDigits? (paddedDigits 4 year.natAbs ++ '-' :: rest) =
      some (year.natAbs, '-' :: rest) := by
    obtain ⟨d, ds, split, -⟩ := exists_paddedDigits_eq_cons 4 year.natAbs
    rw [takeDigits?_append (by simp [split]) (fun c member => isDigit_of_mem_paddedDigits member)
      (stops_cons.mpr (by decide)), digitsValue_paddedDigits]
  simp only [yearText]
  split
  next short =>
    obtain ⟨d, ds, split, digit⟩ := exists_paddedDigits_eq_cons 4 year.natAbs
    have taken := takeDigitsUpTo?_paddedDigits (n := year.natAbs) (show 0 < 4 by decide)
      (by omega) ('-' :: rest)
    rw [split, List.cons_append] at taken ⊢
    rw [takeYear?_of_isDigit digit, taken]
    exact congrArg some (Prod.ext (show (year.natAbs : Int) = year by omega) rfl)
  -- Of more than four digits, or below zero, a year is written with its sign.
  next long =>
    split
    next negative =>
      rw [takeYear?, List.cons_append, trimStart_cons_of_not_blank isBlank_hyphen]
      simp only [signed]
      exact congrArg some (Prod.ext (show -(year.natAbs : Int) = year by omega) rfl)
    next positive =>
      rw [takeYear?, List.cons_append, trimStart_cons_of_not_blank (by decide)]
      simp only [signed]
      exact congrArg some (Prod.ext (show (year.natAbs : Int) = year by omega) rfl)

theorem take?_text {date : CivilDate} (month : date.month < 100)
    (dayOfMonth : date.dayOfMonth < 100) (rest : List Char) :
    take? (date.text ++ rest) = some (date, rest) := by
  simp only [take?, text, List.append_assoc, List.cons_append]
  rw [takeYear?_yearText]
  simp only [Option.bind_eq_bind, Option.bind_some, takeMark?_cons isBlank_hyphen,
    takeTwoDigits?_paddedDigits month, takeTwoDigits?_paddedDigits dayOfMonth]
  rfl

end CivilDate

/-- The text of a day is read as that day. -/
theorem Day.read?_text (d : Day) : Day.read? d.text = some d := by
  have month := d.month_civil_le
  have dayOfMonth := d.dayOfMonth_civil_le
  have taken : CivilDate.take? (d.civil.text ++ []) = some (d.civil, []) :=
    CivilDate.take?_text (by omega) (by omega) []
  rw [List.append_nil] at taken
  simp only [read?, text, taken, Option.bind_eq_bind, Option.bind_some, trimStart_nil, if_true,
    ofCivil?_civil]

end QuayTimeline
