import QuayTimeline.FlatteningRules
import QuayTimeline.Record.VersionKeys
import QuayTimeline.Timeline

/-! # Groups of quay versions

The quays of a stop place that share a public code are versions of one quay. Quays from
other systems are left out unread; drafts are left out too, but only after their
validity has been read, so that a faulty draft is reported. -/

namespace QuayTimeline

/-- A quay and its position among the quays of its stop place. -/
structure PlacedQuay where
  quay : Quay
  position : Nat

/-- A placed quay is known by its position. -/
instance : BEq PlacedQuay := ⟨fun a b => a.position == b.position⟩

instance : ReflBEq PlacedQuay := ⟨fun {a} => beq_self_eq_true a.position⟩

/-- The versions of one public code, in the order of their positions. -/
structure QuayGroup where
  publicCode : PublicCode
  versions : List (Version PlacedQuay)

namespace QuayGroup

/-- The version that a quay is, with its public code; none if the quay is left out. -/
def version? (rules : FlatteningRules) (placed : PlacedQuay) :
    Except FlatteningError (Option (PublicCode × Version PlacedQuay)) :=
  if rules.acceptsSource placed.quay.sourceType? then do
    let validity ← VersionKeys.validity placed.quay
    -- A draft needs no public code.
    if rules.isDraft validity.priority then return none
    else
      match placed.quay.publicCode with
      | some code => return some (code, ⟨placed, validity⟩)
      | none => throw (.missingField placed.quay.label "publicCode")
  else return none

/-- The versions among quays, with their public codes, in order of position. -/
def versionsOf (rules : FlatteningRules) (quays : List Quay) :
    Except FlatteningError (List (PublicCode × Version PlacedQuay)) := do
  let found ← quays.zipIdx.mapM fun (quay, position) => version? rules ⟨quay, position⟩
  return found.filterMap id

/-- The versions of each public code, in the order of the codes. -/
def byPublicCode (versions : List (PublicCode × Version PlacedQuay)) : List QuayGroup :=
  (Identifier.distinct (versions.map (·.1))).map fun code =>
    ⟨code, (versions.filter (·.1 = code)).map (·.2)⟩

def ofQuays (rules : FlatteningRules) (quays : List Quay) :
    Except FlatteningError (List QuayGroup) :=
  byPublicCode <$> versionsOf rules quays

def timeline (group : QuayGroup) : Except FlatteningError (Timeline PlacedQuay) :=
  Timeline.flatten group.publicCode.text group.versions

end QuayGroup

end QuayTimeline
