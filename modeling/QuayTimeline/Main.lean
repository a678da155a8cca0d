import QuayTimeline.Calendar.ZoneTable
import QuayTimeline.CommandLine.Program

/-! # The program on this machine

Reads and writes the files of the machine it runs on. -/

namespace QuayTimeline

/-- Runs an action that may fail; a failure counts as nothing. -/
def attempt {α : Type} (action : IO α) : IO (Option α) :=
  try some <$> action catch _ => return none

/-- Reads all bytes of a stream, piece by piece. -/
partial def readAll (stream : IO.FS.Stream) (read : ByteArray) : IO ByteArray := do
  let piece ← stream.read 65536
  if piece.isEmpty then return read else readAll stream (read ++ piece)

def pack (bytes : Bytes) : ByteArray := ⟨bytes.toArray⟩

/-- The variables of the environment, as the system lists them for a process. -/
def listVariables : IO (List (String × String)) := do
  let listing ← attempt (IO.FS.readBinFile "/proc/self/environ")
  let text := (listing.bind String.fromUTF8?).getD ""
  return (text.splitOn "\x00").filterMap fun entry =>
    match entry.splitOn "=" with
    | name :: value :: more => some (name, String.intercalate "=" (value :: more))
    | _ => none

/-- Whether an action succeeds. -/
def succeeds (action : IO Unit) : IO Bool := do
  return (← attempt action).isSome

/-- A temporary file that is open for writing. -/
structure SpoolFile where
  path : String
  handle : IO.FS.Handle

/-- Creates a temporary file under the first name from a number on that is free. -/
def createSpoolFile (directory : String) : Nat → Nat → IO (Option SpoolFile)
  | 0, _ => return none
  | tries + 1, number => do
    let path := directory ++ "/.tmp" ++ toString number
    match ← attempt (IO.FS.Handle.mk path .writeNew) with
    | some handle => return some ⟨path, handle⟩
    | none => createSpoolFile directory tries (number + 1)

/-- Whether a path leads to a file on a disk, and not to a device or a stream. -/
def leadsToFile (path : String) : IO Bool := do
  match ← attempt (IO.FS.realPath path) with
  | none => return false
  | some real => return !(["/dev/", "/proc/"].any (·.isPrefixOf (toString real)))

instance : Host IO where
  Spool := SpoolFile
  readFile path := do
    match ← attempt (IO.FS.Handle.mk path .read) with
    | none => return .missing
    | some _ =>
      match ← attempt (IO.FS.readBinFile path) with
      | none => return .unreadable
      | some content =>
        if ← leadsToFile path then return .bytes content.toList
        else return .stream content.toList
  readInput := do return (← readAll (← IO.getStdin) .empty).toList
  createSpool directory := do createSpoolFile directory 1000 (← IO.monoNanosNow)
  writeSpool spool content := succeeds (spool.handle.write (pack content))
  flushSpool spool := succeeds spool.handle.flush
  readSpool spool := do
    return (← attempt (IO.FS.readBinFile spool.path)).map (·.toList)
  moveSpool spool path := succeeds (IO.FS.rename spool.path path)
  discardSpool spool := do
    let _ ← attempt (IO.FS.removeFile spool.path)
  print content := succeeds do
    let output ← IO.getStdout
    output.write (pack content)
    output.flush
  flushOutput := succeeds do (← IO.getStdout).flush
  report message := do
    let errors ← IO.getStderr
    errors.putStr message
  environment := listVariables
  currentDirectory := do return toString (← IO.currentDir)

end QuayTimeline

def main (args : List String) : IO UInt32 :=
  QuayTimeline.CommandLine.run QuayTimeline.Zone.named? args
