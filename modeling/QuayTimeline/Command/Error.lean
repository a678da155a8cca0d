import QuayTimeline.Source
import QuayTimeline.StopPlaceLines

/-! # Errors of commands

Why a command failed: what it was doing, from the outside in, and what went wrong. -/

namespace QuayTimeline

/-- What is wrong with one item of the input. -/
inductive ItemError where
  | line (error : LineError)
  | flattening (error : FlatteningError)

def ItemError.message : ItemError → String
  | line error => error.message
  | flattening error => error.message

/-- Why a command failed. -/
inductive CommandError where
  /-- The settings cannot be read. -/
  | settings
  /-- The settings name a time zone that does not exist. -/
  | unknownZone (name : String)
  /-- The input file cannot be opened. -/
  | closedInput (path : String)
  /-- No temporary file can be created in the directory of the output file. -/
  | noSpool (directory : String)
  /-- No temporary file can be created for what is printed. -/
  | noOutputSpool
  /-- The output file cannot be put in place. -/
  | closedOutput (path : String)
  /-- A stop place, counted from 1, cannot be read or flattened. -/
  | unflattened (ordinal : Nat) (cause : SourceError LineError)
  /-- A stop place cannot be written to a temporary file. -/
  | unserialized
  /-- Output cannot be written. -/
  | unwritten
  /-- Output that is written cannot be passed on to where it goes. -/
  | unflushed
  /-- What a temporary file holds cannot be read from its beginning. -/
  | unrewound
  /-- A line that should be inspected holds no stop place. -/
  | unreadLine (cause : LineError)
  /-- A stop place, counted from 1, has no timeline. -/
  | uninspected (ordinal : Nat) (cause : FlatteningError)
  /-- The timelines of a stop place, counted from 1, cannot be printed. -/
  | unprinted (ordinal : Nat)

namespace CommandError

/-- What the command was doing, from the outside in. -/
def contexts : CommandError → List String
  | settings => ["failed to load configuration"]
  | unknownZone name => [Zone.unknownNameMessage name]
  | closedInput path => [s!"failed to open input file: {path}"]
  | noSpool directory => [s!"failed to create temporary file in {directory}"]
  | noOutputSpool => ["failed to create temporary file"]
  | closedOutput path => [s!"failed to write {path}"]
  | unflattened ordinal (.source _) =>
    [s!"failed to flatten stop place {ordinal}", sourceFailedMessage]
  | unflattened ordinal (.flattening _) => [s!"failed to flatten stop place {ordinal}"]
  | unserialized => ["failed to serialize stop place"]
  | unwritten => ["failed to write output"]
  | unflushed => ["failed to flush output"]
  | unrewound => ["failed to rewind temporary file"]
  | unreadLine _ => []
  | uninspected ordinal _ | unprinted ordinal => [s!"failed to inspect stop place {ordinal}"]

/-- What was wrong with an item of the input, where that was the cause. -/
def cause? : CommandError → Option ItemError
  | unflattened _ (.source cause) => some (.line cause)
  | unflattened _ (.flattening cause) => some (.flattening cause)
  | unreadLine cause => some (.line cause)
  | uninspected _ cause => some (.flattening cause)
  | _ => none

def message (error : CommandError) : String :=
  match error.contexts, error.cause? with
  | context :: _, _ => context
  | [], some cause => cause.message
  | [], none => ""

end CommandError

/-- What a command wrote, and how it ended. -/
structure Written (α : Type) where
  text : List Char
  result : Except CommandError α

end QuayTimeline
