import QuayTimeline.Settings.Value
import QuayTimeline.Text.Digits

/-! # The words of TOML

Blanks, comments, keys and strings of a settings file in TOML. A line ends with a line
feed, which a carriage return may precede; no other control character but the tab may
occur. -/

namespace QuayTimeline.Toml

open Text

/-- The characters that may stand between the words of a line. -/
def isSpace (c : Char) : Bool :=
  c = ' ' || c = '\t'

def skipSpace (cs : List Char) : List Char :=
  cs.dropWhile isSpace

/-- The characters that may occur in comments and strings. -/
def isPrintable (c : Char) : Bool :=
  c = '\t' || (0x20 ≤ c.toNat && c.toNat ≠ 0x7F)

def takeLineEnd? : Reader Unit
  | '\n' :: rest => some ((), rest)
  | '\r' :: '\n' :: rest => some ((), rest)
  | _ => none

/-- The text after a comment, if it starts with one. -/
def skipComment : List Char → List Char
  | '#' :: rest => rest.dropWhile isPrintable
  | cs => cs

/-- The text from its first character that is no space, comment or end of a line. The
number bounds the lines. -/
def skipLines : Nat → List Char → List Char
  | 0, cs => cs
  | fuel + 1, cs =>
    let rest := skipComment (skipSpace cs)
    match takeLineEnd? rest with
    | some ((), rest) => skipLines fuel rest
    | none => rest

/-- The characters of a key that needs no quotes. -/
def isBare (c : Char) : Bool :=
  c.isAlphanum || c = '_' || c = '-'

/-- The characters that stand for others after a backslash. -/
def escapes : List (Char × Char) :=
  [('b', '\x08'), ('t', '\t'), ('n', '\n'), ('f', '\x0c'), ('r', '\r'), ('"', '"'), ('\\', '\\')]

def charOf? (codePoint : Nat) : Option Char :=
  if codePoint.isValidChar then some (Char.ofNat codePoint) else none

/-- Takes what a backslash stands for. -/
def takeEscape? : Reader Char
  | [] => none
  | c :: rest =>
    if c = 'u' then do
      let (codePoint, rest) ← takeHex? 4 rest
      return (← charOf? codePoint, rest)
    else if c = 'U' then do
      let (codePoint, rest) ← takeHex? 8 rest
      return (← charOf? codePoint, rest)
    else (escapes.lookup c).map (·, rest)

/-- Takes a string of one line with escapes, after its opening quote. The number bounds its
characters. -/
def takeBasic? : Nat → Reader (List Char)
  | 0, _ => none
  | _, [] => none
  | fuel + 1, c :: rest =>
    if c = '"' then some ([], rest)
    else if c = '\\' then do
      let (escaped, rest) ← takeEscape? rest
      let (body, rest) ← takeBasic? fuel rest
      return (escaped :: body, rest)
    else if isPrintable c then do
      let (body, rest) ← takeBasic? fuel rest
      return (c :: body, rest)
    else none

/-- Takes a string of one line without escapes, after its opening quote. -/
def takeLiteral? : Reader (List Char) := fun cs =>
  let body := cs.takeWhile fun c => isPrintable c && c ≠ '\''
  match cs.drop body.length with
  | '\'' :: rest => some (body, rest)
  | _ => none

/-- How a run of quotes in a string of several lines is read: how many belong to the string,
and how many are used up if they close it. Up to two quotes are part of the string, also
directly before the closing ones. -/
def quoteRun (length : Nat) : Nat × Option Nat :=
  if length < 3 then (length, none) else (min length 5 - 3, some (min length 5))

/-- The text from its first character that is no space or end of a line. The number bounds
the lines. -/
def skipBlankLines : Nat → List Char → List Char
  | 0, cs => cs
  | fuel + 1, cs =>
    match takeLineEnd? (skipSpace cs) with
    | some ((), rest) => skipBlankLines fuel rest
    | none => skipSpace cs

/-- The text after a backslash at the end of a line, which takes the end of the line and all
blank lines after it; none if there is more on the line. -/
def skipFoldedLine? (cs : List Char) : Option (List Char) :=
  (takeLineEnd? (skipSpace cs)).map fun ((), rest) => skipBlankLines rest.length rest

/-- Takes a string of several lines, after its opening quotes. The number bounds its
characters. -/
def takeMultiline? (quote : Char) (escaping : Bool) : Nat → Reader (List Char)
  | 0, _ => none
  | _, [] => none
  | fuel + 1, c :: rest =>
    if c = quote then
      let run := (c :: rest).takeWhile (· = quote)
      let (kept, closing?) := quoteRun run.length
      match closing? with
      | some used => some (List.replicate kept quote, (c :: rest).drop used)
      | none => do
        let (body, rest) ← takeMultiline? quote escaping fuel ((c :: rest).drop kept)
        return (List.replicate kept quote ++ body, rest)
    else if c = '\\' ∧ escaping then
      match skipFoldedLine? rest with
      | some rest => takeMultiline? quote escaping fuel rest
      | none => do
        let (escaped, rest) ← takeEscape? rest
        let (body, rest) ← takeMultiline? quote escaping fuel rest
        return (escaped :: body, rest)
    else
      match takeLineEnd? (c :: rest) with
      | some ((), rest) => do
        let (body, rest) ← takeMultiline? quote escaping fuel rest
        return ('\n' :: body, rest)
      | none =>
        if isPrintable c then do
          let (body, rest) ← takeMultiline? quote escaping fuel rest
          return (c :: body, rest)
        else none

/-- The text without the end of a line at its front, if there is one. -/
def skipFirstLineEnd (cs : List Char) : List Char :=
  match takeLineEnd? cs with
  | some ((), rest) => rest
  | none => cs

/-- Takes a string of any of the four kinds. -/
def takeString? : Reader String := fun cs =>
  let body? := match cs with
    | '"' :: '"' :: '"' :: rest => takeMultiline? '"' true cs.length (skipFirstLineEnd rest)
    | '\'' :: '\'' :: '\'' :: rest =>
      takeMultiline? '\'' false cs.length (skipFirstLineEnd rest)
    | '"' :: rest => takeBasic? cs.length rest
    | '\'' :: rest => takeLiteral? rest
    | _ => none
  body?.map fun (body, rest) => (String.ofList body, rest)

/-- Takes one part of a key: bare, or a string of one line. -/
def takeKeyPart? : Reader String := fun cs =>
  match cs with
  | '"' :: rest => (takeBasic? cs.length rest).map fun (part, rest) => (String.ofList part, rest)
  | '\'' :: rest => (takeLiteral? rest).map fun (part, rest) => (String.ofList part, rest)
  | _ =>
    match cs.takeWhile isBare with
    | [] => none
    | part => some (String.ofList part, cs.dropWhile isBare)

/-- Takes the parts of a key, joined by points. The number bounds the parts. -/
def takeKey? : Nat → Reader (List String)
  | 0, _ => none
  | fuel + 1, cs => do
    let (part, cs) ← takeKeyPart? (skipSpace cs)
    match skipSpace cs with
    | '.' :: rest =>
      let (parts, rest) ← takeKey? fuel rest
      return (part :: parts, rest)
    | rest => return ([part], rest)

/-- The greatest number of parts of a key. -/
def greatestKeyLength : Nat := 79

end QuayTimeline.Toml
