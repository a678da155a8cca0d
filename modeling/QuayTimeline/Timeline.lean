import QuayTimeline.FlatteningError

/-! # Timelines

Versions of one public code may overlap in time. Flattening gives each day to the
version of highest priority: versions are taken in order of priority and start, and
each is spliced over the timeline made so far, which it cuts where they share days.
Two versions of one priority must not share a day. The result is a flat timeline,
one fragment after the other, and days that no version covers stay free. -/

namespace QuayTimeline

/-- A version, or a fragment of one: the days it holds, and what holds on them. -/
@[ext] structure Version (α : Type) where
  owner : α
  validity : Validity
deriving DecidableEq

namespace Version

variable {α : Type}

/-- The order in which versions are spliced: by priority, then by start. -/
def precedes (v w : Version α) : Bool :=
  v.validity.priority < w.validity.priority ∨
    (v.validity.priority = w.validity.priority ∧ v.validity.start ≤ w.validity.start)

/-- The order of time: by start. -/
def startsNoLater (v w : Version α) : Bool :=
  v.validity.start ≤ w.validity.start

/-- The same owner on other days. -/
def withValidity (v : Version α) (validity : Validity) : Version α :=
  { v with validity }

/-- Versions with equal owners and equal validities. -/
def isSame [BEq α] (v w : Version α) : Bool :=
  v.owner == w.owner && v.validity = w.validity

/-- What a fragment leaves of itself under an open-ended version: nothing if it does not start
earlier, else what lies before that version. -/
def cutByIndefinite? (existing next : Version α) : Option (Version α) :=
  if existing.validity.StartsBefore next.validity then
    if existing.validity.Overlaps next.validity then
      (existing.validity.endingBefore? next.validity.start).map existing.withValidity
    else some existing
  else none

/-- What a fragment becomes under a closed version. It is dropped, kept, cut at one side or
split; the version stands beside each part that a cut leaves. -/
def cutByClosed (publicCode : String) (existing next : Version α) :
    Except FlatteningError (List (Version α)) :=
  let current := existing.validity
  let incoming := next.validity
  if current.IsWithin incoming then .ok []
  else if ¬ current.Overlaps incoming then .ok [existing]
  else
    let before := ((current.endingBefore? incoming.start).map existing.withValidity).toList
    let after := ((current.startingAfter? incoming.last).map existing.withValidity).toList
    if current.StartsBefore incoming ∧ current.EndsAfter incoming then
      .ok (before ++ next :: after)
    else if current.StartsBefore incoming then .ok (before ++ [next])
    else if current.EndsAfter incoming then .ok (next :: after)
    else .error (.unreachableSplice publicCode current incoming)

end Version

/-- Fragments of versions in order of time. -/
abbrev Timeline (α : Type) := List (Version α)

namespace Timeline

variable {α : Type} [BEq α]

/-- Lays an open-ended version over the end of a timeline. -/
def spliceIndefinite (timeline : Timeline α) (next : Version α) : Timeline α :=
  timeline.filterMap (·.cutByIndefinite? next) ++ [next]

/-- A version, and the versions after it without those that are the same as the one kept
right before them. -/
def dropRepeatsAfter (kept : Version α) : List (Version α) → List (Version α)
  | [] => [kept]
  | v :: rest =>
    if kept.isSame v then dropRepeatsAfter kept rest else kept :: dropRepeatsAfter v rest

/-- Versions without those that are the same as the one kept right before them. -/
def dropRepeats : List (Version α) → List (Version α)
  | [] => []
  | v :: rest => dropRepeatsAfter v rest

/-- Lays a closed version anywhere into a timeline. -/
def spliceClosed (publicCode : String) (timeline : Timeline α) (next : Version α) :
    Except FlatteningError (Timeline α) := do
  let pieces ← timeline.mapM fun existing => existing.cutByClosed publicCode next
  -- The version may fall into a gap; then no fragment has put it in.
  let spliced := (pieces.flatten ++ [next]).filter (·.validity.CoversSomeDay)
  return dropRepeats (spliced.mergeSort Version.startsNoLater)

/-- Lays a version over a timeline. -/
def splice (publicCode : String) (timeline : Timeline α) (next : Version α) :
    Except FlatteningError (Timeline α) :=
  if next.validity.IsIndefinite then .ok (timeline.spliceIndefinite next)
  else timeline.spliceClosed publicCode next

/-- Splices a version that covers some day, unless a fragment of its own priority shares
one of its days. The public code tells errors apart. -/
def add (publicCode : String) (timeline : Timeline α) (next : Version α) :
    Except FlatteningError (Timeline α) :=
  if next.validity.CoversSomeDay then
    match timeline.find? (·.validity.ConflictsWith next.validity) with
    | some existing =>
      .error (.samePriorityOverlap publicCode existing.validity next.validity)
    | none => timeline.splice publicCode next
  else .ok timeline

def flatten (publicCode : String) (versions : List (Version α)) :
    Except FlatteningError (Timeline α) :=
  (versions.mergeSort Version.precedes).foldlM (add publicCode) []

end Timeline

end QuayTimeline
