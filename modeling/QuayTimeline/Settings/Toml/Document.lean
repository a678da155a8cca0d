import QuayTimeline.Settings.Toml.Scalar

/-! # Documents in TOML

A document is a tree of tables. A header opens a table, or a further one of a list of
tables; the lines after it put values into it, under keys that may lead into tables of
their own. A table is opened by one header at most, and keys do not reach into a table
that a header opened or that was written as a value. -/

namespace QuayTimeline.Toml

open Text

/-- How a table came to be. -/
inductive Origin where
  /-- A header named a table inside it. -/
  | implied
  /-- A key led through it. -/
  | dotted
  /-- A header opened it. -/
  | opened
deriving DecidableEq

/-- A value of a document that is being read: a value that is complete, a table, or a list
of tables that headers opened, the last one first. -/
inductive Node where
  | value (v : Setting)
  | table (origin : Origin) (entries : List (String × Node))
  | tables (elements : List Node)

mutual

def Node.setting : Node → Setting
  | .value v => v
  | .table _ entries => .table (entrySettings entries)
  | .tables elements => .list (elementSettings elements).reverse

def entrySettings : List (String × Node) → Members Setting
  | [] => []
  | (name, node) :: rest => (name, node.setting) :: entrySettings rest

def elementSettings : List Node → List Setting
  | [] => []
  | node :: rest => node.setting :: elementSettings rest

end

/-- Changes the entries at the end of a path, through tables that are there or that come to
be as of a given origin. A path of keys does not enter a table that a header opened; of
a list of tables it enters the last one. The change is told the origin of its table. -/
def descend (origin : Origin) (change : Origin → Members Node → Option (Members Node)) :
    Origin → List String → Members Node → Option (Members Node)
  | current, [], entries => change current entries
  | _, name :: path, entries =>
    match entries.lookup name with
    | none => do
      let inner ← descend origin change origin path []
      return Members.put name (.table origin inner) entries
    | some (.table current inner) =>
      if origin = .dotted ∧ current = .opened then none
      else do
        let inner ← descend origin change current path inner
        return Members.put name (.table current inner) entries
    | some (.tables (.table current inner :: earlier)) => do
      let inner ← descend origin change current path inner
      return Members.put name (.tables (.table current inner :: earlier)) entries
    | some _ => none

/-- Puts a value under a name that is still free. -/
def putFree (name : String) (v : Setting) (entries : Members Node) : Option (Members Node) :=
  match entries.lookup name with
  | none => some (Members.put name (.value v) entries)
  | some _ => none

/-- Puts a value under a key. Of a key of several parts the last table must be one that keys
made. -/
def putValue (path : List String) (name : String) (v : Setting) (entries : Members Node) :
    Option (Members Node) :=
  let change (current : Origin) (entries : Members Node) : Option (Members Node) :=
    if path ≠ [] ∧ current ≠ .dotted then none else putFree name v entries
  descend .dotted change .opened path entries

/-- Opens a table under a name: a new one, or one that headers implied. -/
def openTable (name : String) (entries : Members Node) : Option (Members Node) :=
  match entries.lookup name with
  | none => some (Members.put name (.table .opened []) entries)
  | some (.table .implied inner) => some (Members.put name (.table .opened inner) entries)
  | some _ => none

/-- Opens a further table of a list under a name. -/
def openElement (name : String) (entries : Members Node) : Option (Members Node) :=
  match entries.lookup name with
  | none => some (Members.put name (.tables [.table .opened []]) entries)
  | some (.tables elements) =>
    some (Members.put name (.tables (.table .opened [] :: elements)) entries)
  | some _ => none

/-- Takes a key as the path to its last part, and that part. -/
def takePath? : Reader (List String × String) := fun cs => do
  let (parts, rest) ← takeKey? greatestKeyLength cs
  let name ← parts.getLast?
  return ((parts.dropLast, name), rest)

def takeKeyValue? (value : Reader Setting) : Reader ((List String × String) × Setting) :=
  fun cs => do
    let (path, cs) ← takePath? cs
    let ((), cs) ← takeChar? '=' (skipSpace cs)
    let (v, cs) ← value (skipSpace cs)
    return ((path, v), cs)

/-- Takes the items of a list up to its closing bracket. Lines may end and comments may stand
between them, and a comma after the last one. The number bounds the items. -/
def takeItems? (value : Reader Setting) : Nat → Reader (List Setting)
  | 0, _ => none
  | fuel + 1, cs =>
    match skipLines cs.length cs with
    | ']' :: rest => some ([], rest)
    | cs => do
      let (v, cs) ← value cs
      match skipLines cs.length cs with
      | ',' :: rest =>
        let (vs, rest) ← takeItems? value fuel rest
        return (v :: vs, rest)
      | ']' :: rest => return ([v], rest)
      | _ => none

/-- Takes the entries of a table in braces up to the closing one, on one line and with no
comma after the last one. The number bounds the entries. -/
def takeEntries? (value : Reader Setting) : Nat → Members Node → Reader (Members Node)
  | 0, _, _ => none
  | fuel + 1, entries, cs => do
    let (((path, name), v), cs) ← takeKeyValue? value cs
    let entries ← putValue path name v entries
    match skipSpace cs with
    | ',' :: rest => takeEntries? value fuel entries rest
    | '}' :: rest => return (entries, rest)
    | _ => none

def takeInline? (value : Reader Setting) : Reader Setting := fun cs =>
  match skipSpace cs with
  | '}' :: rest => some (.table [], rest)
  | _ => do
    let (entries, rest) ← takeEntries? value cs.length [] cs
    return (.table (entrySettings entries), rest)

/-- Takes a value that has no parts. -/
def takeAtom? : Reader Setting := fun cs =>
  match cs with
  | '"' :: _ => (takeString? cs).map fun (s, rest) => (.text s, rest)
  | '\'' :: _ => (takeString? cs).map fun (s, rest) => (.text s, rest)
  | 't' :: 'r' :: 'u' :: 'e' :: rest => some (.bool true, rest)
  | 'f' :: 'a' :: 'l' :: 's' :: 'e' :: rest => some (.bool false, rest)
  | _ => takeScalar? cs

/-- Takes a value in which lists and tables are nested up to a depth. -/
def takeValue? : Nat → Reader Setting
  | 0, cs => takeAtom? cs
  | depth + 1, cs =>
    match cs with
    | '[' :: rest =>
      (takeItems? (takeValue? depth) rest.length rest).map fun (items, rest) =>
        (.list items, rest)
    | '{' :: rest => takeInline? (takeValue? depth) rest
    | _ => takeAtom? cs

/-- How deep lists and tables may be nested, the outermost counted. -/
def greatestDepth : Nat := 79

/-- A document that is being read: its entries, and the path of the table that is open. -/
structure Draft where
  entries : Members Node
  current : List String

def Draft.openHeader (draft : Draft) (inList : Bool) (path : List String) (name : String) :
    Option Draft := do
  let change (_ : Origin) : Members Node → Option (Members Node) :=
    if inList then openElement name else openTable name
  let entries ← descend .implied change .opened path draft.entries
  return ⟨entries, path ++ [name]⟩

def Draft.put (draft : Draft) (path : List String) (name : String) (v : Setting) :
    Option Draft := do
  let change (_ : Origin) : Members Node → Option (Members Node) := putValue path name v
  return { draft with entries := ← descend .implied change .opened draft.current draft.entries }

/-- Takes a header or a key with its value. -/
def takeExpression? (draft : Draft) : Reader Draft := fun cs =>
  match cs with
  | '[' :: '[' :: rest => do
    let ((path, name), rest) ← takePath? rest
    let ((), rest) ← takeWord? [']', ']'] (skipSpace rest)
    return (← draft.openHeader true path name, rest)
  | '[' :: rest => do
    let ((path, name), rest) ← takePath? rest
    let ((), rest) ← takeChar? ']' (skipSpace rest)
    return (← draft.openHeader false path name, rest)
  | _ => do
    let (((path, name), v), rest) ← takeKeyValue? (takeValue? greatestDepth) cs
    return (← draft.put path name v, rest)

/-- Reads headers and values up to the end of a text, each on a line of its own. The number
bounds the lines. -/
def readLines? : Nat → Draft → List Char → Option Draft
  | 0, _, _ => none
  | fuel + 1, draft, cs =>
    match skipLines cs.length cs with
    | [] => some draft
    | cs => do
      let (draft, rest) ← takeExpression? draft cs
      match skipComment (skipSpace rest) with
      | [] => return draft
      | rest =>
        let ((), rest) ← takeLineEnd? rest
        readLines? fuel draft rest

/-- The entries of a document in TOML. A mark of byte order may precede it. -/
def read? (cs : List Char) : Option (Members Setting) := do
  let cs := match cs with
    | '\ufeff' :: rest => rest
    | cs => cs
  let draft ← readLines? (cs.length + 1) ⟨[], []⟩ cs
  return entrySettings draft.entries

end QuayTimeline.Toml
