import QuayTimeline.Text.Reader

/-! # Decimal digits

Reading and writing numbers in ASCII decimal digits. A reader takes digits from
the front of a text and returns what is left; a writer pads with zeros to a least
width. -/

namespace QuayTimeline.Text

/-- The number that a row of digits stands for, most significant first. -/
def digitsValue (ds : List Char) : Nat :=
  Nat.ofDigitChars 10 ds 0

/-- Takes all digits from the front of a text; there must be at least one. -/
def takeDigits? : Reader Nat := fun cs =>
  match cs.takeWhile Char.isDigit with
  | [] => none
  | d :: ds => some (digitsValue (d :: ds), cs.dropWhile Char.isDigit)

/-- Takes at most `width` digits from the front of a text; there must be at least one. -/
def takeDigitsUpTo? (width : Nat) : Reader Nat := fun cs =>
  match (cs.take width).takeWhile Char.isDigit with
  | [] => none
  | d :: ds => some (digitsValue (d :: ds), cs.drop (ds.length + 1))

/-- The digits of a number, the fewest that write it. -/
def digits (n : Nat) : List Char :=
  Nat.toDigits 10 n

/-- The digits of a number with zeros in front up to a width. -/
def paddedDigits (width n : Nat) : List Char :=
  List.replicate (width - (digits n).length) '0' ++ digits n

/-- An integer in digits, with a minus sign when it is negative. -/
def intDigits (n : Int) : List Char :=
  if n < 0 then '-' :: digits n.natAbs else digits n.natAbs

/-- Reads a whole text as an integer: an optional sign and digits, nothing else. -/
def readInt? (cs : List Char) : Option Int :=
  match cs with
  | '-' :: ds => magnitude? ds |>.map fun n => -(n : Int)
  | '+' :: ds => magnitude? ds |>.map fun n => (n : Int)
  | ds => magnitude? ds |>.map fun n => (n : Int)
where
  magnitude? (ds : List Char) : Option Nat :=
    if ds ≠ [] ∧ ds.all Char.isDigit then some (digitsValue ds) else none

/-- Digits written for a number stand for that number. -/
@[simp] theorem digitsValue_digits (n : Nat) : digitsValue (digits n) = n :=
  Nat.ofDigitChars_ten_toDigits

end QuayTimeline.Text
