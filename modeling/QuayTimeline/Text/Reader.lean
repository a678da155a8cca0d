/-! # Readers

A reader takes a value from the front of a text and returns it with the rest. -/

namespace QuayTimeline.Text

/-- Takes a value of a type from the front of a text. -/
abbrev Reader (α : Type) := List Char → Option (α × List Char)

def takeWord? (word : List Char) : Reader Unit := fun cs =>
  if word.isPrefixOf cs then some ((), cs.drop word.length) else none

def takeChar? (c : Char) : Reader Unit
  | [] => none
  | d :: rest => if d = c then some ((), rest) else none

/-- The value of a hexadecimal digit in either case. -/
def hexDigit? (c : Char) : Option Nat :=
  if c.isDigit then some (c.toNat - '0'.toNat)
  else if 'a' ≤ c ∧ c ≤ 'f' then some (c.toNat - 'a'.toNat + 10)
  else if 'A' ≤ c ∧ c ≤ 'F' then some (c.toNat - 'A'.toNat + 10)
  else none

/-- Takes a number of exactly so many hexadecimal digits. -/
def takeHex? : Nat → Reader Nat
  | 0, cs => some (0, cs)
  | _ + 1, [] => none
  | n + 1, c :: rest => do
    let high ← hexDigit? c
    let (low, rest) ← takeHex? n rest
    return (high * Nat.pow 16 n + low, rest)

end QuayTimeline.Text
