import QuayTimeline.Calendar.InstantText
import QuayTimeline.Proofs.Calendar.DayText

/-! # Instants read back

The text of an instant is read as that instant, leap seconds included: second 60 stands for the
second before it with a thousand million nanoseconds more. -/

namespace QuayTimeline

open Text

namespace ClockTime

/-- A time of day as clocks show it. -/
structure Shown (time : ClockTime) : Prop where
  hour_lt : time.hour < 24
  minute_lt : time.minute < 60
  second_le : time.second ≤ 60
  nano_lt : time.nano < nanosPerSecond

/-- Up to nine digits of a fraction count in full. -/
theorem takeFraction?_paddedDigits {width n : Nat} (positive : 0 < width) (short : width ≤ 9)
    (bound : n < 10 ^ width) {rest : List Char} (stops : Stops Char.isDigit rest) :
    takeFraction? ('.' :: (paddedDigits width n ++ rest)) = some (n * 10 ^ (9 - width), rest) := by
  have length := length_paddedDigits positive bound
  have value := digitsValue_paddedDigits width n
  have all : ∀ c ∈ paddedDigits width n, c.isDigit = true :=
    fun c member => isDigit_of_mem_paddedDigits member
  obtain ⟨d, ds, split, -⟩ := exists_paddedDigits_eq_cons width n
  simp only [takeFraction?, stops.takeWhile_append all, stops.dropWhile_append all]
  rw [split] at length value ⊢
  simp only [List.take_of_length_le (Nat.le_trans (Nat.le_of_eq length) short), value, length,
    Nat.pow_eq]

theorem takeFraction?_of_ne_point {rest : List Char} (noPoint : ∀ tail, rest ≠ '.' :: tail) :
    takeFraction? rest = some (0, rest) := by
  rw [takeFraction?.eq_def]
  split
  next tail => exact absurd rfl (noPoint tail)
  next => rfl

theorem takeFraction?_fractionText {nano : Nat} (bound : nano < nanosPerSecond) {rest : List Char}
    (stops : Stops Char.isDigit rest) (noPoint : ∀ tail, rest ≠ '.' :: tail) :
    takeFraction? (fractionText nano ++ rest) = some (nano, rest) := by
  simp only [nanosPerSecond] at bound
  simp only [fractionText]
  -- No digits, or three, six or nine of them, of which the last ones left out are zeros.
  split
  next zero => rw [zero, List.nil_append, takeFraction?_of_ne_point noPoint]
  split
  next millis =>
    rw [List.cons_append, takeFraction?_paddedDigits (by decide) (by decide) (by omega) stops]
    exact congrArg some (Prod.ext (show nano / 1000000 * 10 ^ (9 - 3) = nano by omega) rfl)
  split
  next micros =>
    rw [List.cons_append, takeFraction?_paddedDigits (by decide) (by decide) (by omega) stops]
    exact congrArg some (Prod.ext (show nano / 1000 * 10 ^ (9 - 6) = nano by omega) rfl)
  next =>
    rw [List.cons_append, takeFraction?_paddedDigits (by decide) (by decide) (by omega) stops]
    exact congrArg some (Prod.ext (Nat.mul_one nano) rfl)

theorem take?_text {time : ClockTime} (shown : time.Shown) {rest : List Char}
    (stops : Stops Char.isDigit rest) (noPoint : ∀ tail, rest ≠ '.' :: tail) :
    take? (time.text ++ rest) = some (time, rest) := by
  have hour := shown.hour_lt
  have minute := shown.minute_lt
  have second := shown.second_le
  simp only [take?, text, List.append_assoc, List.cons_append]
  rw [CivilDate.takeTwoDigits?_paddedDigits (by omega)]
  simp only [Option.bind_eq_bind, Option.bind_some,
    CivilDate.takeMark?_cons CivilDate.isBlank_colon]
  rw [CivilDate.takeTwoDigits?_paddedDigits (by omega)]
  simp only [Option.bind_some, CivilDate.takeMark?_cons CivilDate.isBlank_colon]
  rw [CivilDate.takeTwoDigits?_paddedDigits (by omega)]
  simp only [Option.bind_some, takeFraction?_fractionText shown.nano_lt stops noPoint, hour, minute,
    second, and_self, if_true]

end ClockTime

namespace Instant

theorem secondOfDay_lt (t : Instant) : t.secondOfDay < 86400 := by
  simp only [secondOfDay, secondsPerDay]
  omega

/-- A leap second is the last second of its minute. -/
theorem secondOfDay_of_leap (t : Instant) (leap : nanosPerSecond ≤ t.nano) :
    t.secondOfDay % 60 = 59 := by
  have second := t.leap leap
  simp only [secondOfDay, secondsPerDay]
  omega

theorem shown_clockTime (t : Instant) : t.clockTime.Shown := by
  have bound := t.secondOfDay_lt
  have nano := t.nano_lt
  have leap := t.secondOfDay_of_leap
  simp only [nanosPerSecond] at nano leap
  constructor <;> simp only [clockTime, nanosPerSecond] <;> omega

theorem secondOfDay_clockTime (t : Instant) : t.clockTime.secondOfDay = t.secondOfDay := by
  have leap := t.secondOfDay_of_leap
  have nano := t.nano_lt
  simp only [nanosPerSecond] at nano leap
  simp only [ClockTime.secondOfDay, clockTime, nanosPerSecond]
  omega

theorem nanoOfSecond_clockTime (t : Instant) : t.clockTime.nanoOfSecond = t.nano := by
  have nano := t.nano_lt
  have leap := t.secondOfDay_of_leap
  simp only [nanosPerSecond] at nano leap
  -- Second 60 is shown only for the nanoseconds of a leap second.
  change (if t.secondOfDay % 60 + t.nano / 1000000000 = 60 then 1000000000 + t.nano % 1000000000
    else t.nano % 1000000000) = t.nano
  split <;> omega

theorem ofLocal?_clockTime (t : Instant) : ofLocal? t.day.civil t.clockTime 0 = some t := by
  have number : t.day.number * secondsPerDay + (t.secondOfDay : Nat) - 0 = t.second := by
    simp only [day, secondOfDay, secondsPerDay]
    omega
  simp only [ofLocal?, Day.ofCivil?_civil, Option.bind_eq_bind, Option.bind_some,
    secondOfDay_clockTime, nanoOfSecond_clockTime, number]
  exact dif_pos ⟨t.firstSecond_le, t.le_lastSecond, t.nano_lt, t.leap⟩

/-- The text of an instant is read as that instant. -/
theorem read?_text (t : Instant) : read? t.text = some t := by
  have month := t.day.month_civil_le
  have dayOfMonth := t.day.dayOfMonth_civil_le
  have offset : takeOffset? (trimStart ['Z']) = some (0, []) := by decide
  simp only [read?, text, Day.text, List.append_assoc, List.cons_append]
  rw [CivilDate.take?_text (by omega) (by omega)]
  simp only [Option.bind_eq_bind, Option.bind_some, takeSeparator?, true_or, if_true]
  rw [ClockTime.take?_text t.shown_clockTime (stops_cons.mpr (by decide)) (by simp)]
  simp only [Option.bind_some, offset, trimStart_nil, if_true, ofLocal?_clockTime]

end Instant

end QuayTimeline
