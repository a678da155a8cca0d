import QuayTimeline.Text.Blank
import QuayTimeline.Validity
import Mathlib.Algebra.Group.Int.Defs
import Mathlib.Algebra.Group.Nat.Defs
import Mathlib.Data.List.TakeWhile

/-! # Numbers read back

What a writer of digits writes, its reader takes, whatever follows that is no digit. The readers
skip blanks and stop by themselves, so each lemma asks of the rest only how it starts. -/

namespace QuayTimeline.Text

/-- A text that does not go on with a character of a kind. -/
def Stops (p : Char → Bool) (rest : List Char) : Prop :=
  ∀ c ∈ rest.head?, p c = false

@[simp] theorem stops_nil {p : Char → Bool} : Stops p [] := by
  simp [Stops]

@[simp] theorem stops_cons {p : Char → Bool} {c : Char} {rest : List Char} :
    Stops p (c :: rest) ↔ p c = false := by
  simp [Stops]

theorem Stops.takeWhile {p : Char → Bool} {rest : List Char} (stops : Stops p rest) :
    rest.takeWhile p = [] := by
  cases rest with
  | nil => rfl
  | cons c rest => simp [stops_cons.mp stops]

theorem Stops.dropWhile {p : Char → Bool} {rest : List Char} (stops : Stops p rest) :
    rest.dropWhile p = rest := by
  cases rest with
  | nil => rfl
  | cons c rest => simp [stops_cons.mp stops]

theorem Stops.trimStart {rest : List Char} (stops : Stops isBlank rest) : trimStart rest = rest :=
  stops.dropWhile

/-- A row of characters of a kind is taken whole where the rest stops. -/
theorem Stops.takeWhile_append {p : Char → Bool} {rest cs : List Char} (stops : Stops p rest)
    (all : ∀ c ∈ cs, p c = true) : (cs ++ rest).takeWhile p = cs := by
  rw [List.takeWhile_append_of_pos all, stops.takeWhile, List.append_nil]

theorem Stops.dropWhile_append {p : Char → Bool} {rest cs : List Char} (stops : Stops p rest)
    (all : ∀ c ∈ cs, p c = true) : (cs ++ rest).dropWhile p = rest := by
  rw [List.dropWhile_append_of_pos all, stops.dropWhile]

theorem ne_of_isDigit {c other : Char} (digit : c.isDigit = true) (none : other.isDigit = false) :
    c ≠ other := by
  rintro rfl
  cases digit.symm.trans none

/-- A digit is not blank. -/
theorem isBlank_of_isDigit {c : Char} (digit : c.isDigit = true) : isBlank c = false := by
  simp only [Char.isDigit, Bool.and_eq_true, decide_eq_true_eq, ge_iff_le] at digit
  have low : 48 ≤ c.toNat := digit.1
  have high : c.toNat ≤ 57 := digit.2
  simp only [isBlank, blankRanges, List.any_cons, List.any_nil, Bool.or_false, Bool.or_eq_false_iff,
    Bool.and_eq_false_iff, decide_eq_false_iff_not]
  omega

/-! ## Rows of digits -/

theorem isDigit_of_mem_digits {n : Nat} {c : Char} (member : c ∈ digits n) : c.isDigit = true :=
  Nat.isDigit_of_mem_toDigits (by decide) (by decide) member

theorem isDigit_of_mem_paddedDigits {width n : Nat} {c : Char}
    (member : c ∈ paddedDigits width n) : c.isDigit = true := by
  cases List.mem_append.mp member with
  | inl zero =>
    rw [List.eq_of_mem_replicate zero]
    decide
  | inr member => exact isDigit_of_mem_digits member

theorem exists_digits_eq_cons (n : Nat) : ∃ d ds, digits n = d :: ds ∧ d.isDigit = true := by
  obtain ⟨d, ds, split⟩ := List.exists_cons_of_ne_nil (Nat.toDigits_ne_nil (n := n) (b := 10))
  exact ⟨d, ds, split, isDigit_of_mem_digits (split ▸ List.mem_cons_self)⟩

theorem exists_paddedDigits_eq_cons (width n : Nat) :
    ∃ d ds, paddedDigits width n = d :: ds ∧ d.isDigit = true := by
  have notEmpty : paddedDigits width n ≠ [] := by
    obtain ⟨d, ds, split, -⟩ := exists_digits_eq_cons n
    simp [paddedDigits, split]
  obtain ⟨d, ds, split⟩ := List.exists_cons_of_ne_nil notEmpty
  exact ⟨d, ds, split, isDigit_of_mem_paddedDigits (split ▸ List.mem_cons_self)⟩

@[simp] theorem digitsValue_paddedDigits (width n : Nat) :
    digitsValue (paddedDigits width n) = n := by
  rw [paddedDigits, digitsValue, Nat.ofDigitChars_append, Nat.ofDigitChars_replicate_zero,
    Nat.mul_zero]
  exact digitsValue_digits n

theorem length_paddedDigits {width n : Nat} (positive : 0 < width) (bound : n < 10 ^ width) :
    (paddedDigits width n).length = width := by
  have short : (digits n).length ≤ width :=
    (Nat.length_toDigits_le_iff (by decide) positive).mpr bound
  simp only [paddedDigits, List.length_append, List.length_replicate]
  omega

/-! ## Readers of digits -/

theorem takeDigits?_append {ds rest : List Char} (notEmpty : ds ≠ [])
    (all : ∀ c ∈ ds, c.isDigit = true) (stops : Stops Char.isDigit rest) :
    takeDigits? (ds ++ rest) = some (digitsValue ds, rest) := by
  obtain ⟨d, tail, rfl⟩ := List.exists_cons_of_ne_nil notEmpty
  simp only [takeDigits?]
  rw [stops.takeWhile_append all, stops.dropWhile_append all]

/-- A padded number fills its width, so the reader needs no end. -/
theorem takeDigitsUpTo?_paddedDigits {width n : Nat} (positive : 0 < width)
    (bound : n < 10 ^ width) (rest : List Char) :
    takeDigitsUpTo? width (paddedDigits width n ++ rest) = some (n, rest) := by
  have length := length_paddedDigits positive bound
  obtain ⟨d, ds, split, -⟩ := exists_paddedDigits_eq_cons width n
  have first : (paddedDigits width n ++ rest).take width = paddedDigits width n :=
    List.take_left' length
  have all : (paddedDigits width n).takeWhile Char.isDigit = paddedDigits width n :=
    List.takeWhile_eq_self_iff.mpr fun c member => isDigit_of_mem_paddedDigits member
  have value := digitsValue_paddedDigits width n
  simp only [takeDigitsUpTo?, first, all]
  rw [split] at length value ⊢
  simp only [value, ← List.length_cons (a := d), List.drop_left]

theorem readInt?_intDigits (n : Int) : readInt? (intDigits n) = some n := by
  have magnitude : readInt?.magnitude? (digits n.natAbs) = some n.natAbs := by
    have all : (digits n.natAbs).all Char.isDigit = true :=
      List.all_eq_true.mpr fun c member => isDigit_of_mem_digits member
    obtain ⟨d, ds, split, -⟩ := exists_digits_eq_cons n.natAbs
    rw [readInt?.magnitude?, if_pos ⟨by simp [split], all⟩, digitsValue_digits]
  simp only [intDigits]
  split
  next negative =>
    simp only [readInt?, magnitude]
    exact congrArg some (show -(n.natAbs : Int) = n by omega)
  next nonnegative =>
    obtain ⟨d, ds, split, digit⟩ := exists_digits_eq_cons n.natAbs
    rw [readInt?.eq_def, split]
    -- A digit is no sign.
    split
    next same => exact absurd (List.cons.inj same).1 (ne_of_isDigit digit (by decide))
    next same => exact absurd (List.cons.inj same).1 (ne_of_isDigit digit (by decide))
    next =>
      rw [← split, magnitude]
      exact congrArg some (show (n.natAbs : Int) = n by omega)

end QuayTimeline.Text

namespace QuayTimeline

/-- The text of a priority is read as that priority. -/
theorem Priority.read?_text (p : Priority) : Priority.read? p.text = some p := by
  rw [read?, text, Text.readInt?_intDigits]
  exact dif_pos ⟨p.neg_two_pow_le, p.lt_two_pow⟩

end QuayTimeline
