import QuayTimeline.Calendar.Civil
import QuayTimeline.Settings.Toml.Words

/-! # Numbers and times in TOML

Integers of 64 bits with underscores between their digits and in four bases, other
numbers, and dates and times. A date or time counts as a table in which nothing is set, as no
setting takes one. -/

namespace QuayTimeline.Toml

open Text

/-- Takes digits of a class, at least one, between which underscores may stand. The number
bounds the digits. -/
def takeGrouped? (isDigit : Char → Bool) : Nat → Reader (List Char)
  | 0, _ => none
  | _, [] => none
  | fuel + 1, c :: rest =>
    if isDigit c then
      match rest with
      | '_' :: more => do
        let (digits, rest) ← takeGrouped? isDigit fuel more
        return (c :: digits, rest)
      | d :: _ =>
        if isDigit d then do
          let (digits, rest) ← takeGrouped? isDigit fuel rest
          return (c :: digits, rest)
        else some ([c], rest)
      | [] => some ([c], [])
    else none

def valueIn (base : Nat) (digits : List Char) : Nat :=
  digits.foldl (fun n c => base * n + (hexDigit? c).getD 0) 0

/-- An integer that fits 64 bits with sign. -/
def integer? (n : Int) : Option Setting :=
  if Int64.minValue.toInt ≤ n ∧ n ≤ Int64.maxValue.toInt then some (.integer n) else none

/-- Takes the digits of an integer in a base. -/
def takeBased? (base : Nat) : Reader Setting := fun cs => do
  let isDigit (c : Char) : Bool := (hexDigit? c).any (· < base)
  let (digits, rest) ← takeGrouped? isDigit cs.length cs
  return (← integer? (valueIn base digits), rest)

/-- Takes a sign: whether it is there, and whether it is a minus sign. -/
def takeSign : List Char → Bool × List Char
  | '-' :: rest => (true, rest)
  | '+' :: rest => (false, rest)
  | cs => (false, cs)

/-- Takes the digits before the point; the first is no zero unless it is the only one. -/
def takeWhole? : Reader (List Char)
  | '0' :: rest => some (['0'], rest)
  | cs => takeGrouped? Char.isDigit cs.length cs

/-- Takes a point and the digits after it, none without a point. -/
def takeFraction? : Reader (List Char)
  | '.' :: rest => takeGrouped? Char.isDigit rest.length rest
  | cs => some ([], cs)

/-- Takes a power of ten, with the letter before it; zero without one. -/
def takePower? : Reader Int
  | [] => some (0, [])
  | c :: rest =>
    if c = 'e' ∨ c = 'E' then do
      let (negative, rest) := takeSign rest
      let (digits, rest) ← takeGrouped? Char.isDigit rest.length rest
      let n : Int := digitsValue digits
      return (if negative then -n else n, rest)
    else some (0, c :: rest)

/-- The least number beyond the range of binary numbers of 64 bits, half a place above
their greatest one. -/
def firstInfinite : Nat := Nat.pow 2 1024 - Nat.pow 2 970

/-- Whether digits times a power of ten are out of the range of binary numbers. -/
def isInfinite (digits : List Char) (power : Int) : Bool :=
  let significant := digits.dropWhile (· = '0')
  let leading : Int := significant.length - 1 + power
  if significant = [] ∨ leading < 308 then false
  else if 308 < leading then true
  else
    firstInfinite * Nat.pow 10 (-power).toNat ≤ digitsValue significant * Nat.pow 10 power.toNat

/-- Takes a decimal number. One with a point or a power of ten is no integer, and must be in
range unless it is negative. -/
def takeDecimal? : Reader Setting := fun cs => do
  let (negative, cs) := takeSign cs
  let (whole, afterWhole) ← takeWhole? cs
  let (fraction, afterFraction) ← takeFraction? afterWhole
  let (power, rest) ← takePower? afterFraction
  if rest.length = afterWhole.length then
    let n : Int := digitsValue whole
    return (← integer? (if negative then -n else n), rest)
  else if ¬negative ∧ isInfinite (whole ++ fraction) (power - fraction.length) then none
  else return (.real, rest)

/-- Takes infinity or no number, with a sign or without. -/
def takeSpecial? : Reader Setting := fun cs =>
  let (_, cs) := takeSign cs
  match cs with
  | 'i' :: 'n' :: 'f' :: rest => some (.real, rest)
  | 'n' :: 'a' :: 'n' :: rest => some (.real, rest)
  | _ => none

/-- Takes a number of exactly so many digits, not above a limit. -/
def takeFixed? (width limit : Nat) : Reader Nat := fun cs =>
  let digits := cs.take width
  if digits.length = width ∧ digits.all Char.isDigit ∧ digitsValue digits ≤ limit then
    some (digitsValue digits, cs.drop width)
  else none

def takeDate? : Reader Unit := fun cs => do
  let (year, cs) ← takeFixed? 4 9999 cs
  let ((), cs) ← takeChar? '-' cs
  let (month, cs) ← takeFixed? 2 12 cs
  let ((), cs) ← takeChar? '-' cs
  let (dayOfMonth, cs) ← takeFixed? 2 31 cs
  let date : CivilDate := ⟨year, month, dayOfMonth⟩
  if date.Exists then some ((), cs) else none

/-- Takes a fraction of a second, if there is one. -/
def takeSecondFraction? : Reader Unit
  | '.' :: rest => (takeDigits? rest).map fun (_, rest) => ((), rest)
  | cs => some ((), cs)

def takeTime? : Reader Unit := fun cs => do
  let (_, cs) ← takeFixed? 2 23 cs
  let ((), cs) ← takeChar? ':' cs
  let (_, cs) ← takeFixed? 2 59 cs
  let ((), cs) ← takeChar? ':' cs
  let (_, cs) ← takeFixed? 2 60 cs
  takeSecondFraction? cs

/-- Takes an offset, if there is one. -/
def takeOffset? : Reader Unit := fun cs =>
  match cs with
  | [] => some ((), [])
  | c :: rest =>
    if c = 'Z' ∨ c = 'z' then some ((), rest)
    else if c = '+' ∨ c = '-' then do
      let (_, rest) ← takeFixed? 2 23 rest
      let ((), rest) ← takeChar? ':' rest
      let (_, rest) ← takeFixed? 2 59 rest
      return ((), rest)
    else some ((), cs)

/-- Takes the time and offset after a date, if there are any. -/
def takeTimeOfDate? : Reader Unit := fun cs =>
  match cs with
  | [] => some ((), [])
  | c :: rest =>
    if c = 'T' ∨ c = 't' ∨ (c = ' ' ∧ (takeFixed? 2 99 rest).isSome) then do
      let ((), rest) ← takeTime? rest
      takeOffset? rest
    else some ((), cs)

/-- Takes a date, with or without time and offset, or a time alone. -/
def takeDateTime? : Reader Unit := fun cs =>
  match cs.drop 2 with
  | ':' :: _ => takeTime? cs
  | _ => do
    let ((), cs) ← takeDate? cs
    takeTimeOfDate? cs

/-- Whether a text starts like a date or a time. -/
def startsDateTime (cs : List Char) : Bool :=
  let digits := cs.takeWhile Char.isDigit
  match digits.length, cs.drop digits.length with
  | 4, '-' :: _ => true
  | 2, ':' :: _ => true
  | _, _ => false

def takeScalar? : Reader Setting := fun cs =>
  match cs with
  | '0' :: 'x' :: rest => takeBased? 16 rest
  | '0' :: 'o' :: rest => takeBased? 8 rest
  | '0' :: 'b' :: rest => takeBased? 2 rest
  | _ =>
    if startsDateTime cs then
      (takeDateTime? cs).map fun ((), rest) => (.table [], rest)
    else takeDecimal? cs <|> takeSpecial? cs

end QuayTimeline.Toml
