import QuayTimeline.Command.Flatten
import QuayTimeline.Command.Inspect
import QuayTimeline.CommandLine.Arguments
import QuayTimeline.CommandLine.Help
import QuayTimeline.CommandLine.Host
import QuayTimeline.Settings.Load

/-! # The program

One run from arguments to exit code, on any host and with any look-up of zones. Flattened stop
places are collected line by line in a temporary file, which takes the place of the output only
once all of them succeeded and are written, so a failed run leaves no output behind. -/

namespace QuayTimeline.CommandLine

variable {m : Type → Type} [Monad m] [Host m]

def encode (cs : List Char) : Bytes :=
  (String.ofList cs).toUTF8.toList

/-- The items of an input: a file, which must be there, or the input of the program. -/
def openInput (path : Option String) :
    m (Except CommandError (List (Except LineError StopPlace))) := do
  match path with
  | none => return .ok (StopPlaceLines.read (← Host.readInput))
  | some path =>
    match ← Host.readFile path with
    | .missing => return .error (.closedInput path)
    -- A directory can be opened, but not read.
    | .unreadable => return .ok [.error (.unreadable 1)]
    | .bytes content => return .ok (StopPlaceLines.read content)
    | .stream content => return .ok (StopPlaceLines.read content)

/-- Writes items in order to a temporary file, flattened, and counts them, from a number of those
written before. The first item at fault ends that, and so does a line that cannot be written. -/
def spoolItems (rules : FlatteningRules) (zone : Zone) (spool : Host.Spool m) (count : Nat) :
    List (Except LineError StopPlace) → m (Except CommandError Nat)
  | [] => return .ok count
  | item :: items => do
    match flattenItem rules zone item with
    | .error cause => return .error (.unflattened (count + 1) cause)
    | .ok place =>
      if ← Host.writeSpool spool (encode place.text) then
        if ← Host.writeSpool spool (encode ['\n']) then
          spoolItems rules zone spool (count + 1) items
        else return .error .unwritten
      else return .error .unserialized

/-- Fills a temporary file with items, flattened in the zone of the settings. -/
def spoolFlattened (zoneNamed? : String → Option Zone) (settings : Settings)
    (items : List (Except LineError StopPlace)) (spool : Host.Spool m) :
    m (Except CommandError Nat) := do
  match zoneNamed? settings.timeZone with
  | none => return .error (.unknownZone settings.timeZone)
  | some zone =>
    match ← spoolItems settings.rules zone spool 0 items with
    | .error error => return .error error
    | .ok count =>
      if ← Host.flushSpool spool then return .ok count else return .error .unflushed

/-- Puts a temporary file in place if it was filled, and discards it otherwise. -/
def placeSpool (spool : Host.Spool m) (path : String) :
    Except CommandError Nat → m (Except CommandError Nat)
  | .error error => do
    Host.discardSpool spool
    return .error error
  | .ok count => do
    if ← Host.moveSpool spool path then return .ok count
    else
      Host.discardSpool spool
      return .error (.closedOutput path)

def flattenToFile (zoneNamed? : String → Option Zone) (settings : Settings)
    (items : List (Except LineError StopPlace)) (path : String) :
    m (Except CommandError Nat) := do
  let directory := FilePath.parent path
  match ← Host.createSpool directory with
  | none => return .error (.noSpool directory)
  | some spool => placeSpool spool path (← spoolFlattened zoneNamed? settings items spool)

/-- The directory for temporary files that belong nowhere else. The environment may name it; an
empty name stands for the current directory. -/
def temporaryDirectory (environment : List (String × String)) : String :=
  match environment.lookup "TMPDIR" with
  | none => "/tmp"
  | some directory => if directory = "" then "." else directory

/-- Prints what a temporary file holds if it was filled. -/
def printSpool (spool : Host.Spool m) : Except CommandError Nat → m (Except CommandError Nat)
  | .error error => return .error error
  | .ok count => do
    match ← Host.readSpool spool with
    | none => return .error .unrewound
    | some content =>
      if ← Host.print content then
        if ← Host.flushOutput then return .ok count else return .error .unflushed
      else return .error .unwritten

def flattenToOutput (zoneNamed? : String → Option Zone) (settings : Settings)
    (items : List (Except LineError StopPlace)) : m (Except CommandError Nat) := do
  match ← Host.createSpool (temporaryDirectory (← Host.environment)) with
  | none => return .error .noOutputSpool
  | some spool =>
    let result ← printSpool spool (← spoolFlattened zoneNamed? settings items spool)
    Host.discardSpool spool
    return result

def runFlatten (zoneNamed? : String → Option Zone) (settings : Settings)
    (input output : Option String) : m (Except CommandError Nat) := do
  match ← openInput input with
  | .error error => return .error error
  | .ok items =>
    match output with
    | some path => flattenToFile zoneNamed? settings items path
    | none => flattenToOutput zoneNamed? settings items

/-- Prints the timelines of items in order, the first of which has an ordinal, up to what is wrong
or cannot be printed. -/
def printItems (rules : FlatteningRules) (ordinal : Nat) :
    List (Except LineError StopPlace) → m (Except CommandError Unit)
  | [] => return .ok ()
  | .error cause :: _ => return .error (.unreadLine cause)
  | .ok place :: items => do
    let (lines, result) := Inspect.writePlace rules place
    if ← Host.print (encode lines) then
      match result with
      | .error cause => return .error (.uninspected ordinal cause)
      | .ok () => printItems rules (ordinal + 1) items
    else return .error (.unprinted ordinal)

/-- Runs the command that shows timelines; it prints also what precedes a fault. -/
def runInspect (settings : Settings) (input : Option String) : m (Except CommandError Unit) := do
  match ← openInput input with
  | .error error => return .error error
  | .ok items => printItems settings.rules 1 items

/-- The directory above another one, by its path from the root. -/
def ancestors (directory : List Char) : Nat → List (List Char)
  | 0 => [[]]
  | fuel + 1 =>
    if directory = [] then [[]]
    else
      directory ::
        ancestors ((directory.reverse.dropWhile (· ≠ '/')).drop 1).reverse fuel

/-- The paths under which a file of settings is looked for: in the current directory, and then
in the directories above it. -/
def settingsPaths (currentDirectory path : String) : List String :=
  if FilePath.isAbsolute path then [path]
  else
    let directory := currentDirectory.toList
    (ancestors directory directory.length).map fun d => String.ofList d ++ "/" ++ path

/-- The bytes of the first file that is there; what is no file is passed over. -/
def firstFile : List String → m (Option Bytes)
  | [] => return none
  | path :: paths => do
    match ← Host.readFile path with
    | .bytes content => return some content
    | _ => firstFile paths

/-- The user's own file of settings, below the directory for settings or the home directory.
The former must be given from the root. -/
def userSettingsPath (environment : List (String × String)) : Option String :=
  let settings? := (environment.lookup "XDG_CONFIG_HOME").filter FilePath.isAbsolute
  let home? := (environment.lookup "HOME").filter (· ≠ "")
  (settings? <|> home?.map (· ++ "/.config")).map (· ++ "/qf/config.toml")

/-- The text of a file of settings, none if it is missing; a fault if it is no text. -/
def decodeFile : Option Bytes → Option (Option (List Char))
  | none => some none
  | some content => (StopPlaceLines.decode? content).map some

def loadSettings (settingsFile : Option String) : m (Except CommandError Settings) := do
  let environment ← Host.environment
  let directory ← Host.currentDirectory
  let find (path? : Option String) := firstFile ((path?.map (settingsPaths directory)).getD [])
  let user ← find (userSettingsPath environment)
  let named ← find settingsFile
  let settings? := do Settings.load? (← decodeFile user) (← decodeFile named) environment
  match settings? with
  | some settings => return .ok settings
  | none => return .error .settings

/-- A message with what it was caused by. -/
def reportText (error : CommandError) : String :=
  let causes := error.contexts.drop 1 ++
    (if error.contexts = [] then [] else (error.cause?.map (·.message)).toList)
  let lines := if causes = [] then "" else
    "\nCaused by:\n" ++ String.join (causes.map fun cause => "    " ++ cause ++ "\n")
  "Error: " ++ error.message ++ "\n" ++ lines

/-- The exit code of a run: 1 after a failure, which is reported. -/
def finish {α : Type} (result : Except CommandError α) : m UInt32 := do
  match result with
  | .ok _ => return 0
  | .error error =>
    Host.report (reportText error)
    return 1

def say (text : String) : m Bool :=
  Host.print text.toUTF8.toList

def sayHelp : m Bool := do
  say (helpText (screenWidth (← Host.environment)))

/-- The exit code after the help and an empty line, where no command is asked for. -/
def showHelp : m UInt32 := do
  if ← sayHelp then
    if ← say "\n" then return 0 else return 101
  else return 1

def perform (zoneNamed? : String → Option Zone) (request : Request) : m UInt32 := do
  match ← loadSettings request.settingsFile with
  | .error error => finish (Except.error error : Except CommandError Unit)
  | .ok settings =>
    match request.command with
    | some (.flatten, input, output) =>
      finish (← runFlatten zoneNamed? settings input output)
    | some (.inspect, input, _) => finish (← runInspect settings input)
    | none => showHelp

/-- Runs the program on its arguments. Zones are looked up by the names that settings give. -/
def run (zoneNamed? : String → Option Zone) (args : List String) : m UInt32 := do
  match read args with
  | .ok request => perform zoneNamed? request
  -- Help and version that are asked for by name count as shown even where they cannot be printed.
  | .error .help =>
    let _ ← sayHelp
    return 0
  | .error .version =>
    let _ ← say versionText
    return 0
  | .error .misuse =>
    Host.report "error: wrong usage\n\nFor more information, try '--help'.\n"
    return 2

end QuayTimeline.CommandLine
