import QuayTimeline.Record.Decode
import QuayTimeline.Text.Blank

/-! # Stop places by lines

Input is bytes; each line holds one stop place. Lines that are blank are skipped, but
counted. Each line is read on its own, so what is wrong with one does not touch the
others. -/

namespace QuayTimeline

open Text

/-- A line that holds no stop place, by its number counted from 1. -/
inductive LineError where
  /-- The bytes of the line are no text. -/
  | unreadable (line : Nat)
  /-- The text of the line is no stop place. -/
  | invalid (line : Nat) (cause : RecordError)
deriving DecidableEq, Repr

def LineError.message : LineError → String
  | unreadable line => s!"failed to read line {line}"
  | invalid line _ => s!"invalid stop place JSON on line {line}"

def invalidEncodingMessage : String := "stream did not contain valid UTF-8"

namespace StopPlaceLines

/-- The byte that ends a line. -/
def lineFeed : UInt8 := 10

/-- The byte that may stand before the end of a line. -/
def carriageReturn : UInt8 := 13

/-- The bytes between line feeds; after the last line feed comes an empty rest. -/
def physicalLines : List UInt8 → List (List UInt8)
  | [] => [[]]
  | byte :: bytes =>
    if byte = lineFeed then [] :: physicalLines bytes
    else
      match physicalLines bytes with
      | [] => [[byte]]
      | line :: lines => (byte :: line) :: lines

/-- The bytes of a line without carriage returns at its end. Only the last of them belongs to the
end of the line; that the others go too makes no difference, as the text of a line is trimmed before
it is read. -/
def content (line : List UInt8) : List UInt8 :=
  (line.reverse.dropWhile (· = carriageReturn)).reverse

def decode? (bytes : List UInt8) : Option (List Char) :=
  (String.fromUTF8? ⟨bytes.toArray⟩).map String.toList

/-- The stop place of a line; none if the line is blank. -/
def readLine? (line : List UInt8) (number : Nat) : Option (Except LineError StopPlace) :=
  match decode? (content line) with
  | none => some (.error (.unreadable number))
  | some cs =>
    match trim cs with
    | [] => none
    | text => some ((StopPlace.read text).mapError (.invalid number))

/-- The stop places of an input, or what is wrong with their lines. -/
def read (input : List UInt8) : List (Except LineError StopPlace) :=
  ((physicalLines input).zipIdx 1).filterMap fun (line, number) => readLine? line number

end StopPlaceLines

end QuayTimeline
