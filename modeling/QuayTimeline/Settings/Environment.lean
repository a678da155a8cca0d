import QuayTimeline.Settings.Value
import QuayTimeline.Text.Blank
import QuayTimeline.Text.Digits

/-! # Settings in the environment

A variable whose name starts with the common beginning holds a setting; two underscores
lead into a table. Its value is read as a truth value, a number, a quoted string, a list in
brackets, a table in braces or a text without quotes, with spaces around. What follows none
of these forms to its end is a string just as it is. -/

namespace QuayTimeline.Environment

open Text

/-- The characters that may stand around a value. -/
def isSpace (c : Char) : Bool :=
  c = ' ' || c = '\t' || c = '\n' || c = '\x0c' || c = '\r'

def skipSpace (cs : List Char) : List Char :=
  cs.dropWhile isSpace

/-- The characters that end a value without quotes. -/
def isSeparator (c : Char) : Bool :=
  c = ',' || c = '{' || c = '}' || c = '[' || c = ']'

/-- The characters that stand for others after a backslash. -/
def escapes : List (Char × Char) :=
  [('"', '"'), ('\\', '\\'), ('b', '\x08'), ('f', '\x0c'), ('n', '\n'), ('r', '\r'), ('t', '\t')]

def charOf? (codePoint : Nat) : Option Char :=
  if codePoint.isValidChar then some (Char.ofNat codePoint) else none

/-- Takes what a backslash stands for. -/
def takeEscape? : Reader Char
  | [] => none
  | c :: rest =>
    if c = 'u' then do
      let (codePoint, rest) ← takeHex? 4 rest
      return (← charOf? codePoint, rest)
    else if c = 'U' then do
      let (codePoint, rest) ← takeHex? 8 rest
      return (← charOf? codePoint, rest)
    else (escapes.lookup c).map (·, rest)

/-- Takes a string as it is written, after its opening quote. A quote after a backslash does
not end it. -/
def takeWritten? : Reader (List Char)
  | [] => none
  | '"' :: rest => some ([], rest)
  | '\\' :: c :: rest =>
    (takeWritten? rest).map fun (written, rest) => ('\\' :: c :: written, rest)
  | c :: rest => (takeWritten? rest).map fun (written, rest) => (c :: written, rest)

/-- The characters that may stand for themselves in a string. -/
def isPrintable (c : Char) : Bool :=
  c = '\t' || (0x20 ≤ c.toNat && c.toNat ≠ 0x7F)

/-- The characters of a string that is written with escapes. The number bounds them. -/
def unescape? : Nat → List Char → Option (List Char)
  | _, [] => some []
  | 0, _ :: _ => none
  | fuel + 1, c :: rest =>
    if c = '\\' then do
      let (escaped, rest) ← takeEscape? rest
      return escaped :: (← unescape? fuel rest)
    else if isPrintable c then (unescape? fuel rest).map (c :: ·)
    else none

/-- The characters at the front of a text whose encodings together fit a number of bytes. -/
def firstBytes : Nat → List Char → List Char
  | _, [] => []
  | n, c :: cs => if c.utf8Size ≤ n then c :: firstBytes (n - c.utf8Size) cs else []

/-- The characters of a string as it is written. Without an escape these are all of it. What
stands before the first escape is cut to as many bytes as it has characters. -/
def stringOf? (written : List Char) : Option (List Char) :=
  let plain := written.takeWhile (· ≠ '\\')
  if plain.all isPrintable then
    match written.drop plain.length with
    | [] => some plain
    | escaped =>
      (unescape? escaped.length escaped).map fun cs => firstBytes plain.length plain ++ cs
  else none

def takeQuoted? : Reader String := fun cs => do
  let (written, rest) ← takeWritten? cs
  return (String.ofList (← stringOf? written), rest)

/-- The rest of a number after its digits and point, if it is a power of ten or nothing. -/
def isPower (cs : List Char) : Bool :=
  match cs with
  | [] => true
  | c :: rest =>
    if c = 'e' ∨ c = 'E' then
      match rest with
      | '+' :: ds => ds ≠ [] ∧ ds.all Char.isDigit
      | '-' :: ds => ds ≠ [] ∧ ds.all Char.isDigit
      | ds => ds ≠ [] ∧ ds.all Char.isDigit
    else false

/-- Whether a text is a number with a point: digits before or after the point, perhaps a sign
before them, perhaps a power of ten after them. -/
def isPointed (cs : List Char) : Bool :=
  let unsigned := match cs with
    | '+' :: rest => rest
    | '-' :: rest => rest
    | rest => rest
  let whole := unsigned.takeWhile Char.isDigit
  match unsigned.drop whole.length with
  | '.' :: rest =>
    let fraction := rest.takeWhile Char.isDigit
    (whole ≠ [] || fraction ≠ []) && isPower (rest.drop fraction.length)
  | _ => false

/-- The value of a text without quotes. Integers fit 64 bits, with sign if they are
negative. -/
def plainValue (cs : List Char) : Setting :=
  if isPointed cs then .real
  else
    match readInt? cs with
    | some n =>
      if Int64.minValue.toInt ≤ n ∧ n < UInt64.size then .integer n else .text (String.ofList cs)
    | none => .text (String.ofList cs)

/-- Takes items separated by commas up to a closing bracket; a comma may follow the last one.
The number bounds the items. -/
def takeItems? {α : Type} (close : Char) (item : Reader α) : Nat → Reader (List α)
  | 0, _ => none
  | fuel + 1, cs =>
    match takeChar? close cs with
    | some ((), rest) => some ([], rest)
    | none => do
      let (x, cs) ← item cs
      match takeChar? ',' cs with
      | some ((), rest) =>
        let (xs, rest) ← takeItems? close item fuel rest
        return (x :: xs, rest)
      | none =>
        let ((), rest) ← takeChar? close cs
        return ([x], rest)

/-- The characters of a name in a table that needs no quotes. -/
def isNameChar (c : Char) : Bool :=
  c.isAlphanum || c = '_' || c = '-'

def takeName? : Reader String := fun cs =>
  match cs with
  | '"' :: rest => takeQuoted? rest
  | _ =>
    match cs.takeWhile isNameChar with
    | [] => none
    | name => some (String.ofList name, cs.dropWhile isNameChar)

/-- Takes an entry of a table: a name, an equals sign and a value. -/
def takeNamed? (value : Reader Setting) : Reader (String × Setting) := fun cs => do
  let (name, cs) ← takeName? (skipSpace cs)
  let ((), cs) ← takeChar? '=' (skipSpace cs)
  let (v, cs) ← value (skipSpace cs)
  return ((name, v), skipSpace cs)

/-- Takes a value without the spaces around it. The number bounds the depth of nesting. -/
def takeValue? : Nat → Reader Setting
  | 0, _ => none
  | depth + 1, cs => do
    let (v, cs) ← match skipSpace cs with
      | 't' :: 'r' :: 'u' :: 'e' :: rest => some (.bool true, rest)
      | 'f' :: 'a' :: 'l' :: 's' :: 'e' :: rest => some (.bool false, rest)
      | '\x7b' :: rest =>
        (takeItems? '\x7d' (takeNamed? (takeValue? depth)) rest.length rest).map
          fun (entries, rest) => (.table (Members.unique entries), rest)
      | '[' :: rest =>
        (takeItems? ']' (takeValue? depth) rest.length rest).map fun (items, rest) =>
          (.list items, rest)
      | '"' :: rest => (takeQuoted? rest).map fun (s, rest) => (.text s, rest)
      | '\'' :: c :: '\'' :: rest => some (.text (String.singleton c), rest)
      | '\'' :: _ => none
      | cs =>
        let written := cs.takeWhile fun c => !isSeparator c
        some (plainValue (trim written), cs.drop written.length)
    return (v, skipSpace cs)

def readValue (cs : List Char) : Setting :=
  match takeValue? (cs.length + 1) cs with
  | some (v, []) => v
  | _ => .text (String.ofList cs)

/-- The beginning of the names of settings, in either case. -/
def commonBeginning : List Char := ['q', 'f', '_']

/-- The parts of a name, which two underscores or a point divide. -/
def nameParts : List Char → List (List Char)
  | [] => [[]]
  | '_' :: '_' :: rest => [] :: nameParts rest
  | '.' :: rest => [] :: nameParts rest
  | c :: rest =>
    match nameParts rest with
    | [] => [[c]]
    | part :: parts => (c :: part) :: parts

/-- The path of the setting that a variable holds, none if it holds none. Blanks around its
name do not count, neither do those after the common beginning. -/
def path? (name : String) : Option (List String) :=
  let name := (trim name.toList).map Char.toLower
  if commonBeginning.isPrefixOf name then
    let parts := nameParts (trim (name.drop commonBeginning.length))
    if parts.any List.isEmpty then none else some (parts.map String.ofList)
  else none

/-- A value in the tables of a path. -/
def nest (path : List String) (v : Setting) : Setting :=
  path.foldr (fun name inner => .table [(name, inner)]) v

/-- The settings of the environment, the later variables merged into the earlier ones. -/
def read (environment : List (String × String)) : Members Setting :=
  environment.foldl (fun entries (name, value) =>
    match path? name with
    | some path => Setting.mergeEntries entries (nest path (readValue value.toList)).entries
    | none => entries) []

end QuayTimeline.Environment
