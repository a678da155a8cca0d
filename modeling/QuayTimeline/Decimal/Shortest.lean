import QuayTimeline.Decimal.Binary64
import QuayTimeline.Text.Digits

/-! # The shortest decimal of a binary number

The reals that round to a binary number form an interval. Of the decimals in it, those
with the fewest digits are the shortest texts of the number; the one nearest to it is
written, and of two equally near ones the even one. -/

namespace QuayTimeline.Decimal

open Text

/-- A decimal `digits * 10 ^ exponent`. -/
structure Scaled where
  digits : Nat
  exponent : Int
deriving DecidableEq, Repr

/-- The fractions that round to a binary number: `4 * mantissa` units of a quarter of its
last place, between two bounds that belong to the interval when the mantissa is even. -/
structure Interval where
  low : Nat
  value : Nat
  high : Nat
  closed : Bool
  /-- The denominator of the three. -/
  unit : Nat

/-- The interval of a number. Below a power of two its neighbour is only half as far. -/
def Interval.of (x : Binary64) : Interval :=
  let scale := Nat.pow 2 x.exponent.toNat
  let below := if x.mantissa = Binary64.leastFullMantissa ∧ x.exponent ≠ -1074 then 1 else 2
  { low := (4 * x.mantissa - below) * scale
    value := 4 * x.mantissa * scale
    high := (4 * x.mantissa + 2) * scale
    closed := x.mantissa % 2 = 0
    unit := 4 * x.denominator }

/-- The interval in units of a power of ten, with one denominator for all. -/
def Interval.inUnitsOf (i : Interval) (power : Int) : Interval :=
  let scale := Nat.pow 10 (-power).toNat
  { low := i.low * scale
    value := i.value * scale
    high := i.high * scale
    closed := i.closed
    unit := i.unit * Nat.pow 10 power.toNat }

/-- A natural number in an interval. -/
def Interval.holds (i : Interval) (n : Nat) : Bool :=
  if i.closed then i.low ≤ n * i.unit ∧ n * i.unit ≤ i.high
  else i.low < n * i.unit ∧ n * i.unit < i.high

/-- The natural number in an interval that is nearest to its value, the even one of two. -/
def Interval.nearest? (i : Interval) : Option Nat :=
  let floor := i.value / i.unit
  let rest := 2 * (i.value % i.unit)
  match i.holds floor, i.holds (floor + 1) with
  | false, false => none
  | true, false => some floor
  | false, true => some (floor + 1)
  | true, true =>
    if rest < i.unit ∨ (rest = i.unit ∧ floor % 2 = 0) then some floor else some (floor + 1)

/-- A power of ten above which every number of the format has digits before the point. -/
def leadingScale : Nat := 400

/-- The number of digits before the point, negative when zeros follow the point. -/
def Interval.magnitude (i : Interval) : Int :=
  (digits (i.value * Nat.pow 10 leadingScale / i.unit)).length - leadingScale

/-- The shortest decimal of a number: the fewest digits from 1 to 17 with a decimal in its
interval. -/
def shortest (x : Binary64) : Scaled :=
  let interval := Interval.of x
  let magnitude := interval.magnitude
  -- Seventeen digits tell any two numbers apart, so one of the tries succeeds.
  let tries := (List.range 17).filterMap fun n =>
    let power := magnitude - (n + 1 : Nat)
    ((interval.inUnitsOf power).nearest?).map (⟨·, power⟩)
  tries.headD ⟨0, 0⟩

/-- Where a decimal is written with a point among its digits, and how otherwise. -/
structure Style where
  /-- The least power of ten of the first digit in positional writing. -/
  leastPositional : Int
  /-- The greatest power of ten of the first digit in positional writing. -/
  greatestPositional : Int

/-- Digits with a point after the first few; zeros fill in on either side. -/
def positional (ds : List Char) (pointAfter : Int) : List Char :=
  if pointAfter ≤ 0 then
    '0' :: '.' :: List.replicate (-pointAfter).toNat '0' ++ ds
  else
    let before := pointAfter.toNat
    let whole := ds.take before ++ List.replicate (before - ds.length) '0'
    whole ++ '.' :: (if ds.length ≤ before then ['0'] else ds.drop before)

/-- Digits with a point after the first one, and the power of ten of that digit. -/
def scientific (ds : List Char) (power : Int) : List Char :=
  let fraction := if ds.length ≤ 1 then [] else '.' :: ds.drop 1
  ds.take 1 ++ fraction ++ 'e' :: (if 0 ≤ power then '+' :: intDigits power else intDigits power)

/-- The digits of a decimal without zeros at the end. -/
def significantDigits (n : Nat) : List Char :=
  ((digits n).reverse.dropWhile (· = '0')).reverse

/-- A binary number in its shortest decimal, written in a style. -/
def text (style : Style) (x : Binary64) : List Char :=
  let sign := if x.negative then ['-'] else []
  if x.mantissa = 0 then sign ++ ['0', '.', '0']
  else
    let decimal := shortest x
    let ds := significantDigits decimal.digits
    let power := decimal.exponent + (digits decimal.digits).length - 1
    if style.leastPositional ≤ power ∧ power ≤ style.greatestPositional then
      sign ++ positional ds (power + 1)
    else sign ++ scientific ds power

end QuayTimeline.Decimal
