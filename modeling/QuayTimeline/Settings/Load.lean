import QuayTimeline.FlatteningRules
import QuayTimeline.Settings.Environment
import QuayTimeline.Settings.Toml.Document

/-! # Loading settings

Settings come from four places, each merged into the ones before: the defaults, the user's
file, a file named on the command line, and the environment. A file that is missing holds
nothing, one that cannot be read spoils all. Only the merged values must have the right
types, so a later place may mend an earlier one; names that mean nothing are ignored. -/

namespace QuayTimeline

structure Settings where
  rules : FlatteningRules
  /-- The name of the zone in which days are turned into instants. -/
  timeZone : String
deriving DecidableEq

namespace Settings

/-- The default rules, in Finland. -/
def default : Settings := ⟨.default, "Europe/Helsinki"⟩

def entries (settings : Settings) : Members Setting :=
  [("flatten", .table
    [("max_priority", .integer settings.rules.maxPriority.value),
     ("source_types", .list (settings.rules.sourceTypes.map .text))]),
   ("time_zone", .text settings.timeZone)]

def text? : Setting → Option String
  | .text s => some s
  | _ => none

def texts? : Setting → Option (List String)
  | .list items => items.mapM text?
  | _ => none

def priority? : Setting → Option Priority
  | .integer n => Priority.ofInt? n
  | _ => none

/-- What a value says, or a default where there is no value. -/
def given {α : Type} (read? : Setting → Option α) (default : α) : Option Setting → Option α
  | some v => read? v
  | none => some default

/-- Rules in a table, or in a list of their values. -/
def rules? : Setting → Option FlatteningRules
  | .table entries => do
    let maxPriority ← given priority? FlatteningRules.default.maxPriority
      (entries.lookup "max_priority")
    let sourceTypes ← given texts? FlatteningRules.default.sourceTypes
      (entries.lookup "source_types")
    return ⟨maxPriority, sourceTypes⟩
  | .list items => do
    let maxPriority ← given priority? FlatteningRules.default.maxPriority items[0]?
    let sourceTypes ← given texts? FlatteningRules.default.sourceTypes items[1]?
    return ⟨maxPriority, sourceTypes⟩
  | _ => none

/-- The settings in the entries of a table, if their types are right. -/
def ofEntries? (entries : Members Setting) : Option Settings := do
  let rules ← given rules? default.rules (entries.lookup "flatten")
  let timeZone ← given text? default.timeZone (entries.lookup "time_zone")
  return ⟨rules, timeZone⟩

/-- The entries of a file; a missing file has none. -/
def fileEntries? : Option (List Char) → Option (Members Setting)
  | some cs => Toml.read? cs
  | none => some []

/-- The settings from the user's file, the named file and the environment. -/
def load? (userFile namedFile : Option (List Char)) (environment : List (String × String)) :
    Option Settings := do
  let user ← fileEntries? userFile
  let named ← fileEntries? namedFile
  let layers := [user, named, Environment.read environment]
  ofEntries? (layers.foldl Setting.mergeEntries default.entries)

end Settings

end QuayTimeline
