import QuayTimeline.Text.Reader

/-! # Quoted JSON strings

Characters between double quotes. Quotes, backslashes and the characters below the
space are written with a backslash; reading also knows `\/` and the code units of any
character in four hexadecimal digits, in pairs where one unit is not enough. A unit
without its partner follows the grammar, but makes no string. -/

namespace QuayTimeline.Json

open Text

/-- A piece of a string in writing. -/
inductive Piece where
  /-- A character, by itself or after a backslash. -/
  | char (c : Char)
  /-- A code unit in hexadecimal digits. -/
  | unit (n : Nat)
deriving DecidableEq, Repr

/-- The characters that stand for others after a backslash. -/
def escapes : List (Char × Char) :=
  [('"', '"'), ('\\', '\\'), ('/', '/'), ('b', '\x08'), ('f', '\x0c'), ('n', '\n'), ('r', '\r'),
   ('t', '\t')]

/-- The code unit that four hexadecimal digits name. -/
def unit? (digits : List Char) : Option Nat :=
  (takeHex? 4 digits).map (·.1)

/-- Takes the pieces of a string up to its closing quote. -/
def takePieces? : Reader (List Piece)
  | [] => none
  | '"' :: rest => some ([], rest)
  | '\\' :: 'u' :: a :: b :: c :: d :: rest => do
    let unit ← unit? [a, b, c, d]
    let (pieces, rest) ← takePieces? rest
    return (.unit unit :: pieces, rest)
  | '\\' :: c :: rest => do
    let escaped ← escapes.lookup c
    let (pieces, rest) ← takePieces? rest
    return (.char escaped :: pieces, rest)
  | c :: rest =>
    if c = '\\' ∨ c.toNat < 0x20 then none
    else do
      let (pieces, rest) ← takePieces? rest
      return (.char c :: pieces, rest)

/-- A code unit that starts a pair. -/
def isLeadingUnit (unit : Nat) : Bool :=
  0xD800 ≤ unit && unit < 0xDC00

/-- A code unit that ends a pair. -/
def isTrailingUnit (unit : Nat) : Bool :=
  0xDC00 ≤ unit && unit < 0xE000

/-- The character of a pair of code units. -/
def pairedChar (leading trailing : Nat) : Char :=
  Char.ofNat (0x10000 + (leading - 0xD800) * 0x400 + (trailing - 0xDC00))

/-- The characters of pieces, if each unit of a pair has its partner. -/
def joinPieces? : List Piece → Option (List Char)
  | [] => some []
  | .char c :: rest => (joinPieces? rest).map (c :: ·)
  | .unit leading :: .unit trailing :: rest =>
    if isTrailingUnit leading then none
    else if isLeadingUnit leading then
      if isTrailingUnit trailing then (joinPieces? rest).map (pairedChar leading trailing :: ·)
      else none
    else (joinPieces? (.unit trailing :: rest)).map (Char.ofNat leading :: ·)
  | .unit unit :: rest =>
    if isTrailingUnit unit ∨ isLeadingUnit unit then none
    else (joinPieces? rest).map (Char.ofNat unit :: ·)

/-- Takes a string after its opening quote. Its value is none when a unit lacks its partner. -/
def takeQuoted? : Reader (Option String) := fun cs =>
  (takePieces? cs).map fun (pieces, rest) => ((joinPieces? pieces).map String.ofList, rest)

/-- A character of a string in writing. -/
def quotedChar (c : Char) : List Char :=
  match c with
  | '"' => ['\\', '"']
  | '\\' => ['\\', '\\']
  | '\x08' => ['\\', 'b']
  | '\x0c' => ['\\', 'f']
  | '\n' => ['\\', 'n']
  | '\r' => ['\\', 'r']
  | '\t' => ['\\', 't']
  | c =>
    if c.toNat < 0x20 then
      ['\\', 'u', '0', '0', Nat.digitChar (c.toNat / 16), Nat.digitChar (c.toNat % 16)]
    else [c]

def quoted (s : String) : List Char :=
  '"' :: s.toList.flatMap quotedChar ++ ['"']

end QuayTimeline.Json
