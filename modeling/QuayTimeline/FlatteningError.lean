import QuayTimeline.Validity

/-! # Errors of flattening

What can be wrong with the records of a stop place, each error with its cause and
its wording. All of them but the unreachable one call for better data: flattening the
same records again fails again. -/

namespace QuayTimeline

/-- Why records cannot be flattened. A record is named by its label. -/
inductive FlatteningError where
  /-- A record lacks a field or a key value that every version must have. -/
  | missingField (record field : String)
  /-- A key value that should be a date is none. -/
  | unreadableDate (record key value : String)
  /-- A key value that should be an integer is none, or does not fit 32 bits. -/
  | unreadableInteger (record key value : String)
  /-- The last day of a version lies before its start. -/
  | endBeforeStart (record : String) (start last : Day)
  /-- A key that should have one value has several. -/
  | severalValues (record key : String) (count : Nat)
  /-- Two versions of one public code and priority share a day. -/
  | samePriorityOverlap (publicCode : String) (existing incoming : Validity)
  /-- A fragment lies towards a version that is spliced over it as no two ranges do. -/
  | unreachableSplice (publicCode : String) (existing incoming : Validity)
  /-- Clocks in the time zone never show the start or the end of a day. -/
  | nonexistentLocalTime (record : String) (day : Day)
deriving DecidableEq

namespace FlatteningError

def message : FlatteningError → String
  | missingField record field => s!"{record} has no `{field}`"
  | unreadableDate record key value =>
    s!"{record}: unable to parse key value {key}={value} as a date"
  | unreadableInteger record key value =>
    s!"{record}: unable to parse key value {key}={value} as an integer"
  | endBeforeStart record start last =>
    s!"{record}: validity ends on {last}, before it starts on {start}"
  | severalValues record key count =>
    s!"{record}: key value {key} has {count} values, expected at most one"
  | samePriorityOverlap publicCode existing incoming =>
    s!"public code {publicCode}: overlapping versions with the same priority: " ++
      s!"{existing} and {incoming}"
  | unreachableSplice publicCode existing incoming =>
    s!"public code {publicCode}: unexpected case while splicing {incoming} over {existing}"
  | nonexistentLocalTime record day =>
    s!"{record}: {day} has no representable local time in the export time zone"

end FlatteningError

end QuayTimeline
