import QuayTimeline.Json.Quoted
import QuayTimeline.Json.Tree

/-! # Reading JSON

Every text gives a tree and a rest. After a fault nothing is left of the text, so a list that
has a fault ends with one. A number bounds the recursion; the length of the text is enough,
because every array, object and item takes a character. -/

namespace QuayTimeline.Json

open Text

/-- Takes something from the front of a text, whatever the text. -/
abbrev Scanner (α : Type) := List Char → α × List Char

/-- The characters that may stand between the parts of a value. -/
def isSpace (c : Char) : Bool :=
  c = ' ' || c = '\n' || c = '\t' || c = '\r'

/-- The text from its first character that is no space. -/
def skipSpace (cs : List Char) : List Char :=
  cs.dropWhile isSpace

/-- Takes items separated by commas up to a closing bracket. There is at least one. -/
def takeItems {α : Type} (close : Char) (fault : α) (item : Scanner α) : Nat → Scanner (List α)
  | 0, _ => ([fault], [])
  | fuel + 1, cs =>
    let (x, cs) := item cs
    match skipSpace cs with
    | [] => ([x, fault], [])
    | c :: rest =>
      if c = ',' then
        let (xs, rest) := takeItems close fault item fuel (skipSpace rest)
        (x :: xs, rest)
      else if c = close then ([x], rest)
      else ([x, fault], [])

/-- Takes a list up to its closing bracket; it may be empty. -/
def takeList {α : Type} (close : Char) (fault : α) (item : Scanner α) (fuel : Nat) :
    Scanner (List α) := fun cs =>
  match skipSpace cs with
  | [] => ([fault], [])
  | c :: rest => if c = close then ([], rest) else takeItems close fault item fuel (c :: rest)

namespace Tree

/-- Takes a member of an object: a string, a colon and a value. -/
def takeMember (value : Scanner Tree) : Scanner Member
  | '"' :: cs =>
    match takeQuoted? cs with
    | none => ((none, .fault), [])
    | some (key, cs) =>
      match skipSpace cs with
      | ':' :: cs =>
        let (v, cs) := value (skipSpace cs)
        ((key, v), cs)
      | _ => ((key, .fault), [])
  | _ => ((none, .fault), [])

/-- Takes a tree that is neither array nor object. -/
def takeLeaf? : Reader Tree := fun cs =>
  match cs with
  | '"' :: rest => (takeQuoted? rest).map fun (s, rest) => (.string s, rest)
  | 'n' :: _ => (takeWord? ['n', 'u', 'l', 'l'] cs).map fun ((), rest) => (.null, rest)
  | 't' :: _ => (takeWord? ['t', 'r', 'u', 'e'] cs).map fun ((), rest) => (.bool true, rest)
  | 'f' :: _ =>
    (takeWord? ['f', 'a', 'l', 's', 'e'] cs).map fun ((), rest) => (.bool false, rest)
  | _ => (NumberParts.take? cs).map fun (parts, rest) => (.number parts, rest)

/-- Takes a tree. -/
def take : Nat → Scanner Tree
  | 0, _ => (.fault, [])
  | fuel + 1, cs =>
    match cs with
    | '[' :: rest =>
      let (items, rest) := takeList ']' .fault (take fuel) fuel rest
      (.array items, rest)
    | '{' :: rest =>
      let (members, rest) := takeList '}' (none, .fault) (takeMember (take fuel)) fuel rest
      (.object members, rest)
    | _ => (takeLeaf? cs).getD (.fault, [])

/-- The tree at the start of a text, and what follows it. -/
def ofText : Scanner Tree := fun cs =>
  let cs := skipSpace cs
  let (tree, rest) := take (cs.length + 1) cs
  (tree, skipSpace rest)

end Tree

end QuayTimeline.Json
