import QuayTimeline.Json.Value
import QuayTimeline.Text.Digits
import QuayTimeline.Text.Reader

/-! # JSON numbers

A number is a sign, an integer part, perhaps a fraction and perhaps a power of ten.
Without fraction and power it is an integer, if it fits. All other numbers become
binary ones: as many leading digits as fit 64 bits make a significand, which is
multiplied or divided once by the power of ten that is left. -/

namespace QuayTimeline.Json

open Text

structure NumberParts where
  negative : Bool
  whole : List Char
  fraction : Option (List Char)
  power : Option Int
deriving DecidableEq

namespace NumberParts

def takeSign : List Char → Bool × List Char
  | '-' :: cs => (true, cs)
  | cs => (false, cs)

/-- Takes the integer part: digits, of which the first is no zero unless it is the only one. -/
def takeWhole? : Reader (List Char) := fun cs =>
  match cs.takeWhile Char.isDigit with
  | [] => none
  | d :: ds => if d = '0' ∧ ds ≠ [] then none else some (d :: ds, cs.dropWhile Char.isDigit)

/-- Takes a point and the digits after it, at least one. -/
def takeFraction? : Reader (Option (List Char)) := fun cs =>
  match cs with
  | '.' :: rest =>
    match rest.takeWhile Char.isDigit with
    | [] => none
    | d :: ds => some (some (d :: ds), rest.dropWhile Char.isDigit)
  | rest => some (none, rest)

/-- Takes a power of ten: the letter, perhaps a sign, and digits, at least one. -/
def takePower? : Reader (Option Int) := fun cs =>
  match cs with
  | [] => some (none, [])
  | c :: rest =>
    if c = 'e' ∨ c = 'E' then
      match rest with
      | '-' :: rest => (takeDigits? rest).map fun (n, rest) => (some (-(n : Int)), rest)
      | '+' :: rest => (takeDigits? rest).map fun (n, rest) => (some (n : Int), rest)
      | rest => (takeDigits? rest).map fun (n, rest) => (some (n : Int), rest)
    else some (none, c :: rest)

def take? : Reader NumberParts := fun cs => do
  let (negative, cs) := takeSign cs
  let (whole, cs) ← takeWhole? cs
  let (fraction, cs) ← takeFraction? cs
  let (power, cs) ← takePower? cs
  return (⟨negative, whole, fraction, power⟩, cs)

/-- Appends digits to a significand as long as it fits 64 bits, and returns the digits that
are left over. -/
def fill (significand : Nat) : List Char → Nat × List Char
  | [] => (significand, [])
  | d :: ds =>
    let longer := 10 * significand + digitsValue [d]
    if longer < UInt64.size then fill longer ds else (significand, d :: ds)

/-- The greatest power of ten by which a significand is multiplied or divided at once. -/
def greatestPower : Nat := 308

def powerOfTen? (n : Nat) : Option Binary64 :=
  Binary64.round? false (Nat.pow 10 n) 1

/-- The binary number for a significand times a power of ten, unless it is too large. A
power below the least one is divided out in two steps, and leaves zero if that is not
enough. -/
def scale? (negative : Bool) (significand : Nat) (power : Int) : Option Binary64 := do
  let x ← Binary64.round? negative significand 1
  if x.mantissa = 0 then return .zero negative
  else if 0 ≤ power then
    if power ≤ greatestPower then x.mul? (← powerOfTen? power.toNat) else none
  else if -power ≤ greatestPower then x.div? (← powerOfTen? (-power).toNat)
  else if -power ≤ 2 * greatestPower then
    let y ← x.div? (← powerOfTen? greatestPower)
    y.div? (← powerOfTen? ((-power).toNat - greatestPower))
  else return .zero negative

/-- An integer that fits 64 bits, with sign if it is negative. Negative zero is none. -/
def integer? (negative : Bool) (magnitude : Nat) : Option Int :=
  if negative then
    if 0 < magnitude ∧ Int64.minValue.toInt ≤ -(magnitude : Int) then some (-(magnitude : Int))
    else none
  else if magnitude < UInt64.size then some magnitude else none

/-- The value of a number without fraction and power of ten that fits no integer, or with. -/
def real? (parts : NumberParts) : Option Binary64 :=
  let (significand, excess) := fill 0 parts.whole
  let fraction := parts.fraction.getD []
  let (significand, ignored) := fill significand fraction
  scale? parts.negative significand
    (parts.power.getD 0 + excess.length - (fraction.length - ignored.length : Nat))

/-- The value of a number, unless it is too large. -/
def value? (parts : NumberParts) : Option Json :=
  match parts.fraction, parts.power, integer? parts.negative (digitsValue parts.whole) with
  | none, none, some n => some (.integer n)
  | _, _, _ => parts.real?.map .real

end NumberParts

end QuayTimeline.Json
