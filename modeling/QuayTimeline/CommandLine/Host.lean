import QuayTimeline.Members

/-! # The host of the program

What the program asks of the machine it runs on: to read files and input, to print, and to
replace a file by way of a temporary one. Whatever creates, writes or moves may fail. A `World`
is a machine as plain data, so that what the program does to its files can be computed and
reasoned about. -/

namespace QuayTimeline

abbrev Bytes := List UInt8

/-- What one finds who opens a file. -/
inductive FileContent where
  | missing
  /-- It can be opened, but not read, as a directory. -/
  | unreadable
  /-- A file with these bytes. -/
  | bytes (content : Bytes)
  /-- No file, but these bytes can be read from it. -/
  | stream (content : Bytes)
deriving DecidableEq

/-- What the program asks of its machine. A request that answers with a truth value says whether it
was granted. -/
class Host (m : Type → Type) where
  /-- What tells one temporary file from another. -/
  Spool : Type
  /-- What is found under a path. -/
  readFile : String → m FileContent
  readInput : m Bytes
  /-- Creates an empty temporary file in a directory. -/
  createSpool : String → m (Option Spool)
  /-- Writes at the end of a temporary file. -/
  writeSpool : Spool → Bytes → m Bool
  /-- Passes on to a temporary file what was written to it. -/
  flushSpool : Spool → m Bool
  /-- What a temporary file holds, read from its beginning. -/
  readSpool : Spool → m (Option Bytes)
  /-- Moves a temporary file to a path, in place of the file there. -/
  moveSpool : Spool → String → m Bool
  discardSpool : Spool → m Unit
  print : Bytes → m Bool
  /-- Passes on what was printed. -/
  flushOutput : m Bool
  report : String → m Unit
  environment : m (List (String × String))
  /-- The directory against which paths are read. -/
  currentDirectory : m String

namespace FilePath

/-- The parts of a path between slashes. -/
def rawParts : List Char → List (List Char)
  | [] => [[]]
  | c :: cs =>
    if c = '/' then [] :: rawParts cs
    else
      match rawParts cs with
      | [] => [[c]]
      | part :: parts => (c :: part) :: parts

/-- What can be a path: some text of less than 4096 bytes, at most 255 between two slashes. -/
def isUsable (path : String) : Bool :=
  path ≠ "" && path.utf8ByteSize < 4096 &&
    (rawParts path.toList).all fun part => (String.ofList part).utf8ByteSize ≤ 255

def isAbsolute (path : String) : Bool :=
  ['/'].isPrefixOf path.toList

/-- What one part of a path leads to from a directory; two points lead up. -/
def follow (directory : List String) (part : List Char) : List String :=
  if part = [] ∨ part = ['.'] then directory
  else if part = ['.', '.'] then directory.dropLast
  else directory ++ [String.ofList part]

/-- The parts of a path without empty ones and lone points at its end; the first one stays. -/
def dropIdleEnd : List (List Char) → List (List Char)
  | [] => []
  | first :: rest =>
    first :: (rest.reverse.dropWhile fun part => part = [] || part = ['.']).reverse

/-- The directory that holds what a path names; a path of one part is in the current
directory. -/
def parent (path : String) : String :=
  match dropIdleEnd (dropIdleEnd (rawParts path.toList)).dropLast with
  | [] => "."
  | [[]] => "/"
  | parts => String.intercalate "/" (parts.map String.ofList)

end FilePath

/-- The files of a machine by the names that lead to them. A directory is what leads to a
file. -/
abbrev FileTree := List (List String × Bytes)

namespace FileTree

def file? (tree : FileTree) (names : List String) : Option Bytes :=
  tree.lookup names

def isDirectory (tree : FileTree) (names : List String) : Bool :=
  tree.any fun f => names.isPrefixOf f.1 && names ≠ f.1

def erase (tree : FileTree) (names : List String) : FileTree :=
  tree.filter (·.1 ≠ names)

/-- The tree with a file, in place of the one that the names lead to. -/
def put (tree : FileTree) (names : List String) (content : Bytes) : FileTree :=
  tree.erase names ++ [(names, content)]

/-- A name that leads nowhere in the tree, being longer than all names in it. -/
def freshName (tree : FileTree) : String :=
  let longest := (tree.flatMap (·.1.map String.length)).foldl max 0
  String.ofList (['.', 't', 'm', 'p'] ++ List.replicate longest '0')

end FileTree

/-- A machine as plain data. -/
structure World where
  files : FileTree
  /-- The current directory, which is there even without files. -/
  directory : List String
  /-- Other directories that are there even without files. -/
  otherDirectories : List (List String)
  /-- What can be read without being a file, as a terminal. -/
  devices : FileTree
  input : Bytes
  environment : List (String × String)
  printed : Bytes
  reported : String
  /-- Whether each of the next requests is refused that may be; all later ones are granted. What is
  refused changes nothing. -/
  refusals : List Bool

namespace World

/-- The world with other refusals to come. -/
def withRefusals (world : World) (refusals : List Bool) : World :=
  { world with refusals }

def refusesNext (world : World) : Bool :=
  world.refusals.headD false

/-- The world after a request that may be refused, apart from what comes of it. -/
def asked (world : World) : World :=
  world.withRefusals world.refusals.tail

/-- Answers a request, or refuses it if its turn has come to be refused. -/
def answer {α : Type} (refusal : α) (act : World → α × World) (world : World) : α × World :=
  if world.refusesNext then (refusal, world.asked) else act world.asked

/-- Whether names lead to a directory in which files can be created. -/
def isOpen (world : World) (names : List String) : Bool :=
  (world.directory :: world.otherDirectories).any names.isPrefixOf ||
    world.files.isDirectory names

def isDirectory (world : World) (names : List String) : Bool :=
  world.isOpen names || world.devices.isDirectory names

/-- The directory that one part of a path leads to from another one, if there is one. -/
def enter? (world : World) (directory : List String) (part : List Char) :
    Option (List String) :=
  let names := FilePath.follow directory part
  if world.isDirectory names then some names else none

/-- The names that a path leads to from the root. All parts of it but the last one must lead
to directories, whatever follows them; the last one may lead to nothing. -/
def locate? (world : World) (path : String) : Option (List String) :=
  if FilePath.isUsable path then
    let start := if FilePath.isAbsolute path then [] else world.directory
    match (FilePath.rawParts path.toList).reverse with
    | [] => none
    | last :: before => do
      let directory ← before.reverse.foldlM world.enter? start
      return FilePath.follow directory last
  else none

def readFile (world : World) (path : String) : FileContent :=
  match world.locate? path with
  | none => .missing
  | some names =>
    if world.isDirectory names then .unreadable
    else
      match world.files.file? names, world.devices.file? names with
      | some content, _ => .bytes content
      | none, some content => .stream content
      | none, none => .missing

/-- Creates a temporary file under a new name, if its directory is there, and returns the
names that lead to it. -/
def createSpool (world : World) (directory : String) : Option (List String) × World :=
  match world.locate? directory with
  | none => (none, world)
  | some names =>
    if world.isOpen names then
      let spool := names ++ [world.files.freshName]
      (some spool, { world with files := world.files.put spool [] })
    else (none, world)

/-- Writes at the end of a file. -/
def append (world : World) (names : List String) (content : Bytes) : World :=
  { world with files := world.files.put names ((world.files.file? names).getD [] ++ content) }

/-- The names under which a file can be put at a path: they lead to no directory, but into
one. -/
def target? (world : World) (path : String) : Option (List String) := do
  let names ← world.locate? path
  if world.isDirectory names then none else some names

/-- Moves a temporary file to a path, if a file can be put there. -/
def moveSpool (world : World) (spool : List String) (path : String) : Bool × World :=
  match world.files.file? spool, world.target? path with
  | some content, some names =>
    (true, { world with files := (world.files.erase spool).put names content })
  | _, _ => (false, world)

instance : Host (StateM World) where
  Spool := List String
  readFile path := do return (← get).readFile path
  readInput := do return (← get).input
  createSpool directory := modifyGet (answer none (·.createSpool directory))
  writeSpool spool content :=
    modifyGet (answer false fun world => (true, world.append spool content))
  flushSpool _ := modifyGet (answer false fun world => (true, world))
  readSpool spool := modifyGet (answer none fun world => (world.files.file? spool, world))
  moveSpool spool path := modifyGet (answer false (·.moveSpool spool path))
  discardSpool spool := modify fun world => { world with files := world.files.erase spool }
  print content := modifyGet
    (answer false fun world => (true, { world with printed := world.printed ++ content }))
  flushOutput := modifyGet (answer false fun world => (true, world))
  report message := modify fun world => { world with reported := world.reported ++ message }
  environment := do return (← get).environment
  currentDirectory := do return "/" ++ String.intercalate "/" (← get).directory

end World

end QuayTimeline
