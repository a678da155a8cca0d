/-! # Binary floating point numbers of 64 bits

A finite number is a sign, a mantissa of at most 53 bits and a power of two, in its
one normal form. Operations are exact on fractions of natural numbers and round once,
to the nearest number and of two equally near ones to the even one. -/

namespace QuayTimeline

/-- The least mantissa of 53 bits. -/
def Binary64.leastFullMantissa : Nat := 4503599627370496

/-- The least number that is no mantissa, having 54 bits. -/
def Binary64.mantissaLimit : Nat := 9007199254740992

/-- A finite number `mantissa * 2 ^ exponent`, with its sign. The exponent is the least
one that the mantissa allows. -/
@[ext] structure Binary64 where
  negative : Bool
  mantissa : Nat
  exponent : Int
  mantissa_lt : mantissa < Binary64.mantissaLimit
  normal : Binary64.leastFullMantissa ≤ mantissa ∨ exponent = -1074
  le_exponent : -1074 ≤ exponent
  exponent_le : exponent ≤ 971
deriving DecidableEq

namespace Binary64

/-- The number of a sign, mantissa and exponent, when they are a normal form. -/
def ofParts? (negative : Bool) (mantissa : Nat) (exponent : Int) : Option Binary64 :=
  if h : mantissa < mantissaLimit ∧ (leastFullMantissa ≤ mantissa ∨ exponent = -1074)
      ∧ -1074 ≤ exponent ∧ exponent ≤ 971 then
    some ⟨negative, mantissa, exponent, h.1, h.2.1, h.2.2.1, h.2.2.2⟩
  else none

/-- Zero, positive or negative. -/
def zero (negative : Bool) : Binary64 :=
  ⟨negative, 0, -1074, by decide, .inr rfl, by decide, by decide⟩

/-- The numerator of the magnitude over `denominator`. -/
def numerator (x : Binary64) : Nat :=
  x.mantissa * Nat.pow 2 x.exponent.toNat

/-- A power of two, 1 for an integer. -/
def denominator (x : Binary64) : Nat :=
  Nat.pow 2 (-x.exponent).toNat

/-- The quotient of two naturals to the nearest natural, a half to the even one. -/
def roundQuotient (numerator denominator : Nat) : Nat :=
  let quotient := numerator / denominator
  let rest := 2 * (numerator % denominator)
  if rest < denominator ∨ (rest = denominator ∧ quotient % 2 = 0) then quotient
  else quotient + 1

/-- A fraction with the denominator multiplied by a power of two, which may be negative. -/
def scaleDown (numerator denominator : Nat) (power : Int) : Nat × Nat :=
  (numerator * Nat.pow 2 (-power).toNat, denominator * Nat.pow 2 power.toNat)

/-- The exponent at which a fraction has 53 bits before the binary point, or the least one. -/
def exponentOf (numerator denominator : Nat) : Int :=
  -- The lengths of both numbers tell the length of their quotient up to one bit.
  let guess := max (-1074) ((numerator.log2 : Int) - denominator.log2 - 53)
  let (n, d) := scaleDown numerator denominator guess
  if n / d < mantissaLimit then guess else guess + 1

/-- The number nearest to a fraction, unless it is too large. -/
def round? (negative : Bool) (numerator denominator : Nat) : Option Binary64 :=
  if numerator = 0 then some (zero negative)
  else
    let exponent := exponentOf numerator denominator
    let (n, d) := scaleDown numerator denominator exponent
    let mantissa := roundQuotient n d
    if mantissa < mantissaLimit then ofParts? negative mantissa exponent
    -- Rounding up has filled a 54th bit; all others are zero.
    else ofParts? negative (mantissa / 2) (exponent + 1)

/-- The product of two magnitudes, with the sign of the first. -/
def mul? (x y : Binary64) : Option Binary64 :=
  round? x.negative (x.numerator * y.numerator) (x.denominator * y.denominator)

/-- The quotient of two magnitudes, with the sign of the first. -/
def div? (x y : Binary64) : Option Binary64 :=
  round? x.negative (x.numerator * y.denominator) (x.denominator * y.numerator)

end Binary64

end QuayTimeline
