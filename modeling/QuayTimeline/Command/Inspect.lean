import QuayTimeline.Command.Error

/-! # The command that shows timelines

For each stop place its label, and for each public code the fragments of its timeline:
the days, the priority and the quay that holds on them. -/

namespace QuayTimeline.Inspect

/-- A text filled up with spaces to a least width. -/
def padded (width : Nat) (cs : List Char) : List Char :=
  cs ++ List.replicate (width - cs.length) ' '

def fragmentLine (fragment : Version PlacedQuay) : List Char :=
  let v := fragment.validity
  let last := (v.end?.map Day.text).getD []
  let source := (fragment.owner.quay.netexId.map (·.text)).getD "-"
  "    ".toList ++ v.start.text ++ " .. ".toList ++ padded 10 last ++ "  priority ".toList
    ++ v.priority.text ++ "  ".toList ++ source.toList ++ ['\n']

/-- The lines of groups in their order, up to the first one without a timeline. -/
def writeGroups : List QuayGroup → List Char × Except FlatteningError Unit
  | [] => ([], .ok ())
  | group :: groups =>
    match group.timeline with
    | .error error => ([], .error error)
    | .ok timeline =>
      let (rest, result) := writeGroups groups
      ("  ".toList ++ group.publicCode.text.toList ++ '\n' :: timeline.flatMap fragmentLine ++ rest,
        result)

/-- The lines of a stop place, up to what is wrong with it. -/
def writePlace (rules : FlatteningRules) (place : StopPlace) :
    List Char × Except FlatteningError Unit :=
  let label := place.label.toList ++ ['\n']
  match QuayGroup.ofQuays rules place.quays with
  | .error error => (label, .error error)
  | .ok [] => (label ++ "  (no flattenable quays)\n".toList, .ok ())
  | .ok groups =>
    let (lines, result) := writeGroups groups
    (label ++ lines, result)

/-- The lines of items in order, the first of which has an ordinal, up to what is wrong. -/
def writeItems (rules : FlatteningRules) (ordinal : Nat) :
    List (Except LineError StopPlace) → Written Unit
  | [] => ⟨[], .ok ()⟩
  | .error cause :: _ => ⟨[], .error (.unreadLine cause)⟩
  | .ok place :: items =>
    match writePlace rules place with
    | (lines, .error cause) => ⟨lines, .error (.uninspected ordinal cause)⟩
    | (lines, .ok ()) =>
      let rest := writeItems rules (ordinal + 1) items
      ⟨lines ++ rest.text, rest.result⟩

def write (rules : FlatteningRules) (items : List (Except LineError StopPlace)) : Written Unit :=
  writeItems rules 1 items

end QuayTimeline.Inspect
