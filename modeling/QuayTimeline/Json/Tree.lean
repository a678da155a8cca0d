import QuayTimeline.Json.Number

/-! # JSON trees

What a text says before its parts are taken at their value. In a tree a number may be out of
range, a string may lack half of a character, and nesting may be deep without bound, as long as
nobody asks for the value. Where the text stops following the grammar, the tree has a fault;
so whoever walks a tree in order meets all that is wrong in the order of the text. -/

namespace QuayTimeline.Json

/-- A text as a tree. A string or a key is none when its characters are incomplete. -/
inductive Tree where
  /-- Here the text stops following the grammar. -/
  | fault
  | null
  | bool (b : Bool)
  | number (parts : NumberParts)
  | string (s : Option String)
  | array (items : List Tree)
  | object (members : List (Option String × Tree))

namespace Tree

/-- A member of an object in a tree. -/
abbrev Member := Option String × Tree

mutual

/-- The value of a tree, if all its parts have one and arrays and objects are not nested deeper
than a number says. -/
def value? : Nat → Tree → Option Json
  | _, .fault => none
  | _, .null => some .null
  | _, .bool b => some (.bool b)
  | _, .number parts => parts.value?
  | _, .string s => s.map .string
  | 0, .array _ => none
  | room + 1, .array items => (itemValues? room items).map .array
  | 0, .object _ => none
  | room + 1, .object members =>
    (memberValues? room members).map fun members => .object (Members.unique members)

def itemValues? : Nat → List Tree → Option (List Json)
  | _, [] => some []
  | room, item :: items => do
    let v ← value? room item
    return v :: (← itemValues? room items)

def memberValues? : Nat → List (Option String × Tree) → Option (Members Json)
  | _, [] => some []
  | room, (key, item) :: members => do
    let key ← key
    let v ← value? room item
    return (key, v) :: (← memberValues? room members)

end

mutual

/-- Whether a tree has no fault, whatever its parts are worth. -/
def isWhole : Tree → Bool
  | .fault => false
  | .array items => itemsAreWhole items
  | .object members => membersAreWhole members
  | _ => true

def itemsAreWhole : List Tree → Bool
  | [] => true
  | item :: items => item.isWhole && itemsAreWhole items

/-- Whether members have no fault; their keys may be incomplete. -/
def membersAreWhole : List (Option String × Tree) → Bool
  | [] => true
  | (_, item) :: members => item.isWhole && membersAreWhole members

end

end Tree

end QuayTimeline.Json
