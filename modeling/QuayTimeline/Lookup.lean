import QuayTimeline.Command.Inspect
import QuayTimeline.Flattening

/-! # Quays looked up by position

A version need not carry its quay: the position among the quays of its stop place will do. Timelines
are then resolved on positions, and a quay is looked up where a fragment becomes a copy or a line.
A look-up finds nothing where no quay stands. -/

namespace QuayTimeline

/-- The versions of one public code by the positions of their quays. -/
structure PositionGroup where
  publicCode : PublicCode
  versions : List (Version Nat)

/-- What comes of steps that may fail and that look quays up; nothing if a quay is not found. -/
abbrev Lookup (α : Type) := ExceptT FlatteningError Option α

def QuayGroup.byPosition (group : QuayGroup) : PositionGroup :=
  ⟨group.publicCode, group.versions.map fun v => ⟨v.owner.position, v.validity⟩⟩

namespace PositionGroup

def ofQuays (rules : FlatteningRules) (quays : List Quay) :
    Except FlatteningError (List PositionGroup) :=
  List.map QuayGroup.byPosition <$> QuayGroup.ofQuays rules quays

def timeline (group : PositionGroup) : Except FlatteningError (Timeline Nat) :=
  Timeline.flatten group.publicCode.text group.versions

/-- The quays that a group is replaced by, looked up one after another. -/
def flatten (zone : Zone) (quays : List Quay) (group : PositionGroup) : Lookup (List Quay) := do
  let timeline ← group.timeline
  timeline.mapM fun fragment => do
    let quay ← (quays[fragment.owner]? : Option Quay)
    quay.withValidity zone fragment.validity

end PositionGroup

/-- The stop place with its quays flattened by their positions. -/
def StopPlace.flattenByPosition (rules : FlatteningRules) (zone : Zone) (place : StopPlace) :
    Lookup StopPlace :=
  if place.quays.any (rules.acceptsSource ·.sourceType?) then do
    let groups ← PositionGroup.ofQuays rules place.quays
    let quays ← groups.mapM (PositionGroup.flatten zone place.quays)
    return { place with quays := quays.flatten }
  else return place

namespace Inspect

/-- The line of a fragment, whose quay is looked up. -/
def lineByPosition (quays : List Quay) (fragment : Version Nat) : Option (List Char) := do
  let quay ← quays[fragment.owner]?
  return fragmentLine ⟨⟨quay, fragment.owner⟩, fragment.validity⟩

def writeGroupsByPosition (quays : List Quay) :
    List PositionGroup → Option (List Char × Except FlatteningError Unit)
  | [] => some ([], .ok ())
  | group :: groups =>
    match group.timeline with
    | .error error => some ([], .error error)
    | .ok timeline => do
      let lines ← timeline.mapM (lineByPosition quays)
      let (rest, result) ← writeGroupsByPosition quays groups
      return ("  ".toList ++ group.publicCode.text.toList ++ '\n' :: lines.flatten ++ rest, result)

/-- The lines of a stop place, whose quays are looked up. -/
def writePlaceByPosition (rules : FlatteningRules) (place : StopPlace) :
    Option (List Char × Except FlatteningError Unit) :=
  let label := place.label.toList ++ ['\n']
  match PositionGroup.ofQuays rules place.quays with
  | .error error => some (label, .error error)
  | .ok [] => some (label ++ "  (no flattenable quays)\n".toList, .ok ())
  | .ok groups => do
    let (lines, result) ← writeGroupsByPosition place.quays groups
    return (label ++ lines, result)

end Inspect

end QuayTimeline
