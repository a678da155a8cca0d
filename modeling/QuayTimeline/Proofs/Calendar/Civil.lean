import QuayTimeline.Calendar.Civil

/-! # Days and civil dates

Every day has a date, and the date names the day. The year is found by a guess that is off by one
at most; month and day of month by walking through the lengths of the months. -/

namespace QuayTimeline

namespace CivilDate

/-! ## Years -/

theorem daysBeforeYear_succ (year : Int) :
    daysBeforeYear (year + 1) = daysBeforeYear year + if isLeapYear year then 366 else 365 := by
  simp only [daysBeforeYear, isLeapYear, Bool.and_eq_true, Bool.or_eq_true, decide_eq_true_eq]
  split <;> omega

/-- The year of a day starts on that day or before, and the next year after it. -/
theorem yearOf_spec (n : Int) :
    daysBeforeYear (yearOf n) ≤ n ∧ n < daysBeforeYear (yearOf n + 1) := by
  -- The guess lies within one year of the right one on either side.
  simp only [yearOf]
  generalize guess : 400 * n / 146097 = g
  have bounds : 146097 * g ≤ 400 * n ∧ 400 * n < 146097 * g + 146097 := by omega
  clear guess
  split
  next early =>
    simp only [daysBeforeYear, Int.sub_add_cancel] at early ⊢
    omega
  split
  next late =>
    simp only [daysBeforeYear] at late ⊢
    omega
  next notEarly notLate => exact ⟨Int.not_lt.mp notEarly, Int.not_le.mp notLate⟩

/-! ## Months -/

/-- Walking through the lengths of months ends at a month with the days before it, and at a day
in that month. -/
theorem monthAndDay_spec {lengths : List Nat} (month : Nat) {n : Nat}
    (bound : n < lengths.foldr (· + ·) 0) :
    ∃ index dayOfMonth length, monthAndDay lengths month n = (month + index, dayOfMonth) ∧
      lengths[index]? = some length ∧ 1 ≤ dayOfMonth ∧ dayOfMonth ≤ length ∧
      (lengths.take index).foldr (· + ·) 0 + (dayOfMonth - 1) = n := by
  induction lengths generalizing month n with
  | nil => exact absurd bound (Nat.not_lt_zero n)
  | cons first lengths ih =>
    simp only [List.foldr_cons] at bound
    simp only [monthAndDay]
    split
    next inFirst => exact ⟨0, n + 1, first, rfl, rfl, by omega, by omega, by simp⟩
    next later =>
      obtain ⟨index, dayOfMonth, length, walked, atIndex, positive, inMonth, sum⟩ :=
        ih (month + 1) (n := n - first) (by omega)
      refine ⟨index + 1, dayOfMonth, length, ?_, by simpa using atIndex, positive, inMonth, ?_⟩
      · rw [walked, Nat.add_assoc, Nat.add_comm 1 index]
      · simp only [List.take_succ_cons, List.foldr_cons]
        omega

theorem sum_monthLengths (leap : Bool) :
    (monthLengths leap).foldr (· + ·) 0 = if leap then 366 else 365 := by
  cases leap <;> rfl

theorem monthLengths_le {leap : Bool} {length : Nat} (member : length ∈ monthLengths leap) :
    length ≤ 31 := by
  revert length
  cases leap <;> decide

theorem ofDaysFromYearZero_spec (n : Int) :
    (ofDaysFromYearZero n).Exists ∧
      daysBeforeYear (ofDaysFromYearZero n).year +
        daysBeforeMonth (isLeapYear (ofDaysFromYearZero n).year) (ofDaysFromYearZero n).month +
        ((ofDaysFromYearZero n).dayOfMonth - 1 : Nat) = n ∧
      (ofDaysFromYearZero n).month ≤ 12 ∧ (ofDaysFromYearZero n).dayOfMonth ≤ 31 := by
  obtain ⟨yearLe, ltNext⟩ := yearOf_spec n
  rw [daysBeforeYear_succ] at ltNext
  have bound : (n - daysBeforeYear (yearOf n)).toNat <
      (monthLengths (isLeapYear (yearOf n))).foldr (· + ·) 0 := by
    rw [sum_monthLengths]
    generalize isLeapYear (yearOf n) = leap at ltNext ⊢
    cases leap <;> simp only [Bool.false_eq_true, if_true, if_false] at ltNext ⊢ <;> omega
  obtain ⟨index, dayOfMonth, length, walked, atIndex, positive, inMonth, sum⟩ :=
    monthAndDay_spec 1 bound
  have date : ofDaysFromYearZero n = ⟨yearOf n, 1 + index, dayOfMonth⟩ := by
    simp only [ofDaysFromYearZero, walked]
  have short := monthLengths_le (List.mem_of_getElem? atIndex)
  obtain ⟨inYear, -⟩ := List.getElem?_eq_some_iff.mp atIndex
  -- There are twelve lengths, whatever the year.
  have twelve : (monthLengths (isLeapYear (yearOf n))).length = 12 := rfl
  rw [date]
  refine ⟨⟨positive, ?_⟩, ?_, ?_, ?_⟩
  · simpa [monthLength, atIndex] using inMonth
  · simp only [daysBeforeMonth, Nat.add_sub_cancel_left]
    omega
  · simp only
    omega
  · simp only
    omega

end CivilDate

namespace Day

/-- The date of a day names that day. -/
theorem ofCivil?_civil (d : Day) : ofCivil? d.civil = some d := by
  obtain ⟨dateExists, number, -, -⟩ :=
    CivilDate.ofDaysFromYearZero_spec (d.number + CivilDate.epochOffset)
  have dayNumber : d.civil.dayNumber = d.number := by
    simp only [CivilDate.dayNumber, civil] at number ⊢
    omega
  rw [ofCivil?, dayNumber, ofNumber?_number]
  exact if_pos dateExists

theorem month_civil_le (d : Day) : d.civil.month ≤ 12 :=
  (CivilDate.ofDaysFromYearZero_spec _).2.2.1

theorem dayOfMonth_civil_le (d : Day) : d.civil.dayOfMonth ≤ 31 :=
  (CivilDate.ofDaysFromYearZero_spec _).2.2.2

end Day

end QuayTimeline
