import QuayTimeline.Calendar.Zone
import QuayTimeline.QuayGroup

/-! # Flattening stop places

The quays of a stop place are replaced by the fragments of their timelines: detached
copies, each with the days that it holds in its key values and the instants of these
days in the zone. A stop place that has no quay to flatten stays as it is. -/

namespace QuayTimeline

namespace Quay

/-- An instant that is there, or the error for a day that clocks do not show. -/
def instantOf (q : Quay) (d : Day) (instant? : Option Instant) :
    Except FlatteningError Instant :=
  match instant? with
  | some t => .ok t
  | none => .error (.nonexistentLocalTime q.label d)

/-- The key values with a validity written into them; a validity without an end leaves
no key for it. -/
def keyValuesWith (kvs : KeyValues) (v : Validity) : KeyValues :=
  let kvs := kvs.insert VersionKeys.priority [toString v.priority]
  let kvs := kvs.insert VersionKeys.start [toString v.start]
  match v.end? with
  | some last => kvs.insert VersionKeys.last [toString last]
  | none => kvs.erase VersionKeys.last

/-- A detached copy of a quay that holds on the days of a validity, from the first
instant of its first day to the last instant of its last one. -/
def withValidity (zone : Zone) (q : Quay) (v : Validity) : Except FlatteningError Quay := do
  let fromDate ← q.instantOf v.start (zone.startOfDay? v.start)
  let toDate ← match v.end? with
    | some last => some <$> q.instantOf last (zone.endOfDay? last)
    | none => pure none
  return { q.detached with
    validBetween := some ⟨fromDate, toDate⟩
    keyValues := keyValuesWith q.keyValues v }

end Quay

/-- The quays that a group is replaced by, one for each fragment of its timeline. -/
def QuayGroup.flatten (zone : Zone) (group : QuayGroup) : Except FlatteningError (List Quay) := do
  (← group.timeline).mapM fun fragment =>
    fragment.owner.quay.withValidity zone fragment.validity

/-- The stop place with its quays flattened, ordered by public code and start. -/
def StopPlace.flatten (rules : FlatteningRules) (zone : Zone) (place : StopPlace) :
    Except FlatteningError StopPlace :=
  if place.quays.any (rules.acceptsSource ·.sourceType?) then do
    let groups ← QuayGroup.ofQuays rules place.quays
    let quays ← groups.mapM (QuayGroup.flatten zone)
    return { place with quays := quays.flatten }
  else return place

end QuayTimeline
