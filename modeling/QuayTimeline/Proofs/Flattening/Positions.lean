import QuayTimeline.Proofs.Flattening.Fragments
import QuayTimeline.Proofs.Timeline.Owners

/-! # Positions

Versions are told apart by the positions of their quays, but what becomes of a stop place does not
depend on where its quays stand. So the positions may be forgotten before flattening starts, and
with them the quays that are not imported at all. -/

namespace QuayTimeline

open Timeline

/-- A quay apart from its position. -/
def PlacedQuay.unplaced (placed : PlacedQuay) : PlacedQuay :=
  ⟨placed.quay, 0⟩

/-- A version of a code apart from the position of its quay. -/
def unplaced (e : PublicCode × Version PlacedQuay) : PublicCode × Version PlacedQuay :=
  (e.1, e.2.rename PlacedQuay.unplaced)

/-- The quays of a stop place that are imported from the systems to flatten. -/
def FlatteningRules.imported (rules : FlatteningRules) (quays : List Quay) : List Quay :=
  quays.filter (rules.acceptsSource ·.sourceType?)

theorem FlatteningRules.mem_imported {rules : FlatteningRules} {quays : List Quay} {q : Quay} :
    q ∈ rules.imported quays ↔ q ∈ quays ∧ rules.acceptsSource q.sourceType? = true :=
  List.mem_filter

namespace QuayGroup

variable {rules : FlatteningRules} {zone : Zone}

/-! ## Versions -/

theorem version?_unplaced (rules : FlatteningRules) (q : Quay) (position : Nat) :
    version? rules ⟨q, 0⟩ = Option.map unplaced <$> version? rules ⟨q, position⟩ := by
  rw [version?, version?]
  by_cases accepted : rules.acceptsSource q.sourceType? = true
  · rw [if_pos accepted, if_pos accepted]
    cases VersionKeys.validity q with
    | error error => rfl
    | ok v =>
      by_cases draft : rules.isDraft v.priority = true
      · simp only [ok_bind, if_pos draft]
        rfl
      · simp only [ok_bind, if_neg draft]
        cases q.publicCode <;> rfl
  · rw [if_neg accepted, if_neg accepted]
    rfl

/-- The versions among quays, in order, apart from their positions. -/
def unplacedVersionsOf (rules : FlatteningRules) (quays : List Quay) :
    Except FlatteningError (List (PublicCode × Version PlacedQuay)) := do
  let found ← quays.mapM fun q => version? rules ⟨q, 0⟩
  return found.filterMap id

theorem mapM_version?_unplaced (rules : FlatteningRules) (quays : List Quay) :
    quays.mapM (fun q => version? rules ⟨q, 0⟩) =
      List.map (Option.map unplaced) <$>
        quays.zipIdx.mapM fun (q, i) => version? rules ⟨q, i⟩ := by
  have placed := List.zipIdx_map_fst 0 quays
  rw [← mapM_map_right, ← placed, List.mapM_map, placed]
  exact mapM_congr fun p _ => version?_unplaced rules p.1 p.2

theorem unplacedVersionsOf_eq (rules : FlatteningRules) (quays : List Quay) :
    unplacedVersionsOf rules quays = List.map unplaced <$> versionsOf rules quays := by
  rw [unplacedVersionsOf, versionsOf, mapM_version?_unplaced]
  cases quays.zipIdx.mapM fun (q, i) => version? rules ⟨q, i⟩ with
  | error error => rfl
  | ok found =>
    refine congrArg Except.ok ?_
    rw [List.filterMap_map, List.map_filterMap]
    rfl

theorem unplacedVersionsOf_cons (rules : FlatteningRules) (q : Quay) (quays : List Quay) :
    unplacedVersionsOf rules (q :: quays) = do
      let found ← version? rules ⟨q, 0⟩
      let versions ← unplacedVersionsOf rules quays
      return found.toList ++ versions := by
  simp only [unplacedVersionsOf, List.mapM_cons]
  cases version? rules ⟨q, 0⟩ with
  | error error => rfl
  | ok found =>
    simp only [ok_bind]
    cases quays.mapM fun q => version? rules ⟨q, 0⟩ with
    | error error => rfl
    | ok rest => cases found <;> rfl

/-- Quays that are not imported are not read. -/
theorem unplacedVersionsOf_imported (rules : FlatteningRules) (quays : List Quay) :
    unplacedVersionsOf rules (rules.imported quays) = unplacedVersionsOf rules quays := by
  induction quays with
  | nil => rfl
  | cons q quays ih =>
    by_cases accepted : rules.acceptsSource q.sourceType? = true
    · have split : rules.imported (q :: quays) = q :: rules.imported quays :=
        List.filter_cons_of_pos accepted
      rw [split, unplacedVersionsOf_cons, unplacedVersionsOf_cons, ih]
    · have leftOut : version? rules ⟨q, 0⟩ = .ok none := by
        rw [version?, if_neg accepted]
        rfl
      have split : rules.imported (q :: quays) = rules.imported quays :=
        List.filter_cons_of_neg accepted
      rw [split, ih, unplacedVersionsOf_cons, leftOut, ok_bind]
      cases unplacedVersionsOf rules quays <;> rfl

/-! ## Groups -/

/-- A group apart from the positions of its quays. -/
def unplaced (group : QuayGroup) : QuayGroup :=
  ⟨group.publicCode, group.versions.map (Version.rename PlacedQuay.unplaced)⟩

theorem byPublicCode_map_unplaced (versions : List (PublicCode × Version PlacedQuay)) :
    byPublicCode (versions.map QuayTimeline.unplaced) =
      (byPublicCode versions).map QuayGroup.unplaced := by
  have codes : (versions.map QuayTimeline.unplaced).map (·.1) = versions.map (·.1) :=
    List.map_map
  simp only [byPublicCode, codes, List.map_map, List.filter_map]
  refine List.map_congr_left fun code _ => ?_
  simp only [Function.comp_apply, QuayGroup.unplaced, List.map_map]
  rfl

/-- A group is replaced by the same quays wherever its versions stand. -/
theorem flatten_unplaced (zone : Zone) (group : QuayGroup) :
    group.unplaced.flatten zone = group.flatten zone := by
  have timeline : group.unplaced.timeline =
      List.map (Version.rename PlacedQuay.unplaced) <$> group.timeline :=
    flatten_rename PlacedQuay.unplaced group.publicCode.text group.versions
  rw [QuayGroup.flatten, QuayGroup.flatten, timeline]
  cases group.timeline with
  | error error => rfl
  | ok fragments =>
    change (fragments.map _).mapM _ = _
    rw [List.mapM_map]
    rfl

/-- The quays that versions are replaced by, group after group. -/
def flattenVersions (zone : Zone) (versions : List (PublicCode × Version PlacedQuay)) :
    Except FlatteningError (List Quay) :=
  List.flatten <$> (byPublicCode versions).mapM (QuayGroup.flatten zone)

theorem flattenVersions_map_unplaced (zone : Zone)
    (versions : List (PublicCode × Version PlacedQuay)) :
    flattenVersions zone (versions.map QuayTimeline.unplaced) = flattenVersions zone versions := by
  have each : QuayGroup.flatten zone ∘ QuayGroup.unplaced = QuayGroup.flatten zone :=
    funext fun group => flatten_unplaced zone group
  rw [flattenVersions, byPublicCode_map_unplaced, List.mapM_map, each]
  rfl

end QuayGroup

open QuayGroup

/-- A stop place is flattened by what its imported quays are as versions, and by their order. -/
theorem StopPlace.flatten_eq {rules : FlatteningRules} {zone : Zone} {place : StopPlace}
    (accepted : ∃ q ∈ place.quays, rules.acceptsSource q.sourceType? = true) :
    place.flatten rules zone = (fun quays => { place with quays }) <$>
      (unplacedVersionsOf rules (rules.imported place.quays) >>= flattenVersions zone) := by
  rw [unplacedVersionsOf_imported, unplacedVersionsOf_eq, StopPlace.flatten,
    if_pos (List.any_eq_true.mpr accepted), QuayGroup.ofQuays]
  cases versionsOf rules place.quays with
  | error error => rfl
  | ok versions =>
    change _ = _ <$> flattenVersions zone (versions.map unplaced)
    rw [flattenVersions_map_unplaced, flattenVersions]
    change ((byPublicCode versions).mapM (QuayGroup.flatten zone) >>= _) = _
    cases (byPublicCode versions).mapM (QuayGroup.flatten zone) <;> rfl

theorem StopPlace.flatten_eq_ok_iff_flattenVersions {rules : FlatteningRules} {zone : Zone}
    {place result : StopPlace}
    (accepted : ∃ q ∈ place.quays, rules.acceptsSource q.sourceType? = true) :
    place.flatten rules zone = .ok result ↔ ∃ versions quays,
      unplacedVersionsOf rules (rules.imported place.quays) = .ok versions ∧
        flattenVersions zone versions = .ok quays ∧ { place with quays } = result := by
  simp only [StopPlace.flatten_eq accepted, map_eq_ok_iff, bind_eq_ok_iff]
  constructor
  · rintro ⟨quays, ⟨versions, read, replaced⟩, rfl⟩
    exact ⟨versions, quays, read, replaced, rfl⟩
  · rintro ⟨versions, quays, read, replaced, rfl⟩
    exact ⟨quays, ⟨versions, read, replaced⟩, rfl⟩

end QuayTimeline
