import QuayTimeline.Json.Number
import QuayTimeline.Json.Printer
import QuayTimeline.Proofs.Text.Digits

/-! # Numbers read back

An integer in writing is read whole, unless what follows would continue a number. Negative zero,
which is no integer, is read back too. -/

namespace QuayTimeline

namespace Text

/-- Only zero is written with a zero in front. -/
theorem head?_digits_ne_zero {n : Nat} (positive : 0 < n) : (digits n).head? ≠ some '0' := by
  -- The first digit is that of the number without its last digit.
  induction n using Nat.strongRecOn with
  | ind n ih =>
    by_cases single : n < 10
    · have all : ∀ m : Fin 10, 0 < m.val → Nat.digitChar m ≠ '0' := by decide
      have first := all ⟨n, single⟩ positive
      rw [digits, Nat.toDigits_of_lt_base single]
      exact fun same => first (Option.some.inj same)
    · have shorter := ih (n / 10) (by omega) (by omega)
      obtain ⟨d, ds, split, -⟩ := exists_digits_eq_cons (n / 10)
      rw [digits, Nat.toDigits_of_base_le (by decide) (by omega)]
      rw [digits] at shorter split
      rw [split] at shorter ⊢
      exact shorter

end Text

namespace Json

open Text

/-- The characters with which a number may go on. -/
def continuesNumber (c : Char) : Bool :=
  c.isDigit || c = '.' || c = 'e' || c = 'E'

namespace NumberParts

/-- The parts of an integer. -/
def ofInt (n : Int) : NumberParts :=
  ⟨n < 0, digits n.natAbs, none, none⟩

/-- The parts of negative zero. -/
def negativeZero : NumberParts :=
  ⟨true, ['0'], some ['0'], none⟩

variable {rest : List Char}

theorem stops_isDigit (stops : Stops continuesNumber rest) : Stops Char.isDigit rest := by
  intro c member
  have none := stops c member
  simp only [continuesNumber, Bool.or_eq_false_iff] at none
  exact none.1.1.1

theorem takeWhole?_digits (n : Nat) (stops : Stops Char.isDigit rest) :
    takeWhole? (digits n ++ rest) = some (digits n, rest) := by
  have all : ∀ c ∈ digits n, c.isDigit = true := fun c member => isDigit_of_mem_digits member
  obtain ⟨d, ds, split, -⟩ := exists_digits_eq_cons n
  -- A zero in front would be refused, but stands alone.
  have noZero : ¬ (d = '0' ∧ ds ≠ []) := by
    rintro ⟨rfl, more⟩
    cases Nat.eq_zero_or_pos n with
    | inl zero =>
      subst zero
      cases split
      exact more rfl
    | inr positive => exact head?_digits_ne_zero positive (by rw [split]; rfl)
  simp only [takeWhole?, stops.takeWhile_append all, stops.dropWhile_append all]
  rw [split]
  exact if_neg noZero

theorem takeFraction?_of_stops (stops : Stops continuesNumber rest) :
    takeFraction? rest = some (none, rest) := by
  rw [takeFraction?.eq_def]
  split
  next tail => exact absurd (stops_cons.mp stops) (by decide)
  next => rfl

theorem takePower?_of_stops (stops : Stops continuesNumber rest) :
    takePower? rest = some (none, rest) := by
  cases rest with
  | nil => rfl
  | cons c rest =>
    have none := stops_cons.mp stops
    simp only [continuesNumber, Bool.or_eq_false_iff, decide_eq_false_iff_not] at none
    rw [takePower?.eq_def]
    exact if_neg (not_or.mpr ⟨none.1.2, none.2⟩)

theorem takeSign_of_isDigit {d : Char} (digit : d.isDigit = true) (cs : List Char) :
    takeSign (d :: cs) = (false, d :: cs) := by
  rw [takeSign.eq_def]
  split
  next same =>
    cases same
    cases digit
  next => rfl

/-- An integer in writing is taken whole. -/
theorem take?_intDigits (n : Int) (stops : Stops continuesNumber rest) :
    take? (intDigits n ++ rest) = some (ofInt n, rest) := by
  have whole := takeWhole?_digits n.natAbs (stops_isDigit stops)
  have fraction := takeFraction?_of_stops stops
  have power := takePower?_of_stops stops
  have signed : takeSign (intDigits n ++ rest) = (decide (n < 0), digits n.natAbs ++ rest) := by
    rw [intDigits]
    split
    next negative => simp [takeSign, negative]
    next nonnegative =>
      obtain ⟨d, ds, split, digit⟩ := exists_digits_eq_cons n.natAbs
      rw [split, List.cons_append, takeSign_of_isDigit digit, decide_eq_false nonnegative]
  simp only [take?, signed, whole, fraction, power, Option.bind_eq_bind, Option.bind_some, ofInt]
  rfl

/-- An integer that fits 64 bits, with a sign or without, is the value of its parts. -/
theorem value?_ofInt {n : Int} (least : -2 ^ 63 ≤ n) (bound : n < 2 ^ 64) :
    (ofInt n).value? = some (.integer n) := by
  have value : integer? (decide (n < 0)) (digitsValue (digits n.natAbs)) = some n := by
    rw [digitsValue_digits, integer?]
    split
    next negative =>
      have below : n < 0 := of_decide_eq_true negative
      have fits : 0 < n.natAbs ∧ Int64.minValue.toInt ≤ -(n.natAbs : Int) := by
        have least' : Int64.minValue.toInt = -2 ^ 63 := by decide
        omega
      rw [if_pos fits]
      exact congrArg some (by omega)
    next nonnegative =>
      have notBelow : ¬ n < 0 := fun below => nonnegative (decide_eq_true below)
      have fits : n.natAbs < UInt64.size := by
        have size : UInt64.size = 2 ^ 64 := by decide
        omega
      rw [if_pos fits]
      exact congrArg some (by omega)
  simp only [value?, ofInt, value]

theorem take?_negativeZero (stops : Stops continuesNumber rest) :
    take? (['-', '0', '.', '0'] ++ rest) = some (negativeZero, rest) := by
  have taken : takeFraction? ('.' :: '0' :: rest) = some (some ['0'], rest) := by
    have digits := stops_isDigit stops
    simp only [takeFraction?, List.takeWhile_cons, List.dropWhile_cons, digits.takeWhile,
      digits.dropWhile]
    rfl
  have whole : takeWhole? ('0' :: '.' :: '0' :: rest) = some (['0'], '.' :: '0' :: rest) := rfl
  simp only [take?, List.cons_append, List.nil_append, takeSign, whole, taken,
    takePower?_of_stops stops, Option.bind_eq_bind, Option.bind_some]
  rfl

end NumberParts

end Json

end QuayTimeline
