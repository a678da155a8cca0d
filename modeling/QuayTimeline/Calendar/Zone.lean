import QuayTimeline.Calendar.Instant

/-! # Time zones

A zone is a table of offsets: one that holds from the beginning of time, and the
seconds at which it changes. A clock in the zone shows the same local time once,
twice (clocks were put back) or never (clocks were put forward), so a local time
has a list of instants, in the order of time where the changes are. -/

namespace QuayTimeline

/-- An offset of local clocks from the universal one, in seconds to the east, less than a day. -/
@[ext] structure Offset where
  seconds : Int
  neg_day_lt : -86400 < seconds
  lt_day : seconds < 86400
deriving DecidableEq

def Offset.east (seconds : Int) (h : -86400 < seconds ∧ seconds < 86400 := by decide) : Offset :=
  ⟨seconds, h.1, h.2⟩

/-- The offset of so many seconds, when that is less than a day. -/
def Offset.ofSeconds? (seconds : Int) : Option Offset :=
  if h : -86400 < seconds ∧ seconds < 86400 then some ⟨seconds, h.1, h.2⟩ else none

/-- A change of clocks: the universal second from which an offset holds. -/
structure ClockChange where
  second : Int
  offset : Offset
deriving DecidableEq

/-- A zone: the offset before all changes, and the changes in order of time. -/
structure Zone where
  initial : Offset
  changes : List ClockChange
deriving DecidableEq

namespace Zone

/-- The zone whose clocks never change. -/
def fixed (offset : Offset) : Zone := ⟨offset, []⟩

/-- The universal seconds, from a start on, at which clocks show a local second: for each
stretch between two changes, the local second less the offset when that falls into it. -/
def readingsFrom (start : Option Int) (offset : Offset) (localSecond : Int) :
    List ClockChange → List Int
  | [] =>
    let second := localSecond - offset.seconds
    if start.all (· ≤ second) then [second] else []
  | change :: changes =>
    -- The second of a change belongs to the stretch after it.
    let second := localSecond - offset.seconds
    let later := readingsFrom (some change.second) change.offset localSecond changes
    if start.all (· ≤ second) ∧ second < change.second then second :: later else later

/-- The universal seconds at which clocks in a zone show a local second. -/
def readings (zone : Zone) (localSecond : Int) : List Int :=
  readingsFrom none zone.initial localSecond zone.changes

/-- The instants at which clocks in a zone show a local second and nanoseconds. There
are none when one of them would not be representable. -/
def instantsAt (zone : Zone) (localSecond : Int) (nano : Nat) : List Instant :=
  ((zone.readings localSecond).mapM (Instant.of? · nano)).getD []

/-- The first instant of a day; of two midnights the earlier one. -/
def startOfDay? (zone : Zone) (day : Day) : Option Instant :=
  (zone.instantsAt (day.number * secondsPerDay) 0).head?

/-- The last instant of a day; where its last second comes twice, the later one. -/
def endOfDay? (zone : Zone) (day : Day) : Option Instant :=
  (zone.instantsAt (day.number * secondsPerDay + 86399) (nanosPerSecond - 1)).getLast?

/-- What is said of a name that no zone has. -/
def unknownNameMessage (name : String) : String :=
  "invalid time_zone " ++ name ++ ": failed to parse timezone"

end Zone

end QuayTimeline
