import QuayTimeline.Lookup
import QuayTimeline.Proofs.Flattening.Partition
import QuayTimeline.Proofs.Timeline.Owners

/-! # Look-ups that find their quays

The fragments of a group are owned by the positions of its versions, and there stand the quays that
the versions carry. So each look-up finds its quay, and it makes no difference whether versions
carry quays or positions. -/

namespace QuayTimeline

open Timeline

namespace Lookup

variable {α β : Type}

/-- What comes of steps that look nothing up. -/
def of (result : Except FlatteningError α) : Lookup α :=
  ExceptT.mk (some result)

theorem of_bind (x : Except FlatteningError α) (f : α → Except FlatteningError β) :
    (of x >>= fun a => of (f a)) = of (x >>= f) := by
  cases x <;> rfl

theorem mapM_of {f : α → Lookup β} {g : α → Except FlatteningError β} {as : List α}
    (each : ∀ a ∈ as, f a = of (g a)) : as.mapM f = of (as.mapM g) := by
  induction as with
  | nil => rfl
  | cons a as ih =>
    rw [List.mapM_cons, List.mapM_cons, each a List.mem_cons_self,
      ih fun b member => each b (List.mem_cons_of_mem _ member)]
    cases g a with
    | error error => rfl
    | ok b => cases as.mapM g <;> rfl

end Lookup

namespace QuayGroup

variable {rules : FlatteningRules} {quays : List Quay} {groups : List QuayGroup}
variable {group : QuayGroup}

/-- A group whose versions carry the quays at their positions. -/
def Placed (quays : List Quay) (group : QuayGroup) : Prop :=
  ∀ w ∈ group.versions, quays[w.owner.position]? = some w.owner.quay

theorem placed_of_ofQuays (grouped : ofQuays rules quays = .ok groups) :
    ∀ group ∈ groups, group.Placed quays := by
  intro group member w memberW
  exact (((ofQuays_partition rules quays).1 groups grouped).versions group member w memberW).1

theorem timeline_byPosition (group : QuayGroup) :
    group.byPosition.timeline =
      List.map (Version.rename PlacedQuay.position) <$> group.timeline :=
  flatten_rename PlacedQuay.position group.publicCode.text group.versions

/-- Fragments carry the quays at their positions too. -/
theorem Placed.getElem?_of_mem (placed : group.Placed quays) {timeline : Timeline PlacedQuay}
    (resolved : group.timeline = .ok timeline) {f : Version PlacedQuay} (member : f ∈ timeline) :
    quays[f.owner.position]? = some f.owner.quay := by
  obtain ⟨-, resolves⟩ := flatten_eq_ok_iff.mp resolved
  obtain ⟨w, run⟩ := resolves.run f member
  have wins := run.wins _ (Validity.mem_start run.covers)
  rw [run.owner]
  exact placed w wins.member

theorem flatten_byPosition (zone : Zone) (placed : group.Placed quays) :
    group.byPosition.flatten zone quays = .of (group.flatten zone) := by
  rw [PositionGroup.flatten, timeline_byPosition, QuayGroup.flatten]
  cases resolved : group.timeline with
  | error error => rfl
  | ok timeline =>
    change (timeline.map _).mapM _ = Lookup.of (timeline.mapM _)
    rw [List.mapM_map]
    apply Lookup.mapM_of
    intro f member
    have found := placed.getElem?_of_mem resolved member
    change (liftM quays[f.owner.position]? >>= fun quay =>
      Lookup.of (quay.withValidity zone f.validity)) = _
    rw [found]
    rfl

end QuayGroup

open QuayGroup

/-- It makes no difference to the flattened stop place whether quays are looked up by position. -/
theorem StopPlace.flattenByPosition_eq (rules : FlatteningRules) (zone : Zone) (place : StopPlace) :
    place.flattenByPosition rules zone = .of (place.flatten rules zone) := by
  rw [flattenByPosition, StopPlace.flatten]
  split
  next =>
    rw [PositionGroup.ofQuays]
    cases grouped : ofQuays rules place.quays with
    | error error => rfl
    | ok groups =>
      have placed := placed_of_ofQuays grouped
      have each : (groups.map byPosition).mapM (PositionGroup.flatten zone place.quays) =
          .of (groups.mapM (QuayGroup.flatten zone)) := by
        rw [List.mapM_map]
        apply Lookup.mapM_of
        exact fun group member => flatten_byPosition zone (placed group member)
      change ((groups.map byPosition).mapM (PositionGroup.flatten zone place.quays) >>= _) = _
      rw [each]
      exact Lookup.of_bind _ fun quays : List (List Quay) =>
        .ok { place with quays := quays.flatten }
  next => rfl

namespace Inspect

theorem lineByPosition_rename {quays : List Quay} {f : Version PlacedQuay}
    (found : quays[f.owner.position]? = some f.owner.quay) :
    lineByPosition quays (f.rename PlacedQuay.position) = some (fragmentLine f) := by
  change (quays[f.owner.position]? >>= fun quay =>
    some (fragmentLine ⟨⟨quay, f.owner.position⟩, f.validity⟩)) = _
  rw [found]
  rfl

theorem mapM_lineByPosition {quays : List Quay} {timeline : Timeline PlacedQuay}
    (found : ∀ f ∈ timeline, quays[f.owner.position]? = some f.owner.quay) :
    (timeline.map (Version.rename PlacedQuay.position)).mapM (lineByPosition quays) =
      some (timeline.map fragmentLine) := by
  induction timeline with
  | nil => rfl
  | cons f timeline ih =>
    obtain ⟨foundHere, foundThere⟩ := List.forall_mem_cons.mp found
    rw [List.map_cons, List.mapM_cons, lineByPosition_rename foundHere, ih foundThere]
    rfl

theorem writeGroupsByPosition_eq {quays : List Quay} {groups : List QuayGroup}
    (placed : ∀ group ∈ groups, group.Placed quays) :
    writeGroupsByPosition quays (groups.map byPosition) = some (writeGroups groups) := by
  induction groups with
  | nil => rfl
  | cons group groups ih =>
    obtain ⟨placedHere, placedThere⟩ := List.forall_mem_cons.mp placed
    rw [List.map_cons, writeGroupsByPosition, writeGroups, timeline_byPosition]
    cases resolved : group.timeline with
    | error error => rfl
    | ok timeline =>
      change ((timeline.map _).mapM _ >>= _) = _
      have found (f : Version PlacedQuay) (member : f ∈ timeline) :
          quays[f.owner.position]? = some f.owner.quay :=
        placedHere.getElem?_of_mem resolved member
      rw [mapM_lineByPosition found, ih placedThere]
      rfl

/-- It makes no difference to what is shown of a stop place either. -/
theorem writePlaceByPosition_eq (rules : FlatteningRules) (place : StopPlace) :
    writePlaceByPosition rules place = some (writePlace rules place) := by
  rw [writePlaceByPosition, writePlace, PositionGroup.ofQuays]
  cases grouped : ofQuays rules place.quays with
  | error error => rfl
  | ok groups =>
    have same := writeGroupsByPosition_eq (placed_of_ofQuays grouped)
    cases groups with
    | nil => rfl
    | cons group groups =>
      change (writeGroupsByPosition place.quays _ >>= _) = _
      rw [same]
      rfl

end Inspect

end QuayTimeline
