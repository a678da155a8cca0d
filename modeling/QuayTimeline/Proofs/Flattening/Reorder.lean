import QuayTimeline.Proofs.Flattening.ByDay
import QuayTimeline.Proofs.Flattening.Positions

/-! # Quays in another order

Versions that do not clash resolve to one timeline only, in whatever order they come. So the order
of the quays of a stop place matters to nothing but which of several faults is reported, and quays
that are not imported matter to nothing at all. -/

namespace QuayTimeline

open Timeline

/-- Versions in another order resolve to the same timeline. -/
theorem Timeline.flatten_of_perm {α : Type} [BEq α] [ReflBEq α] {publicCode : String}
    {versions others : List (Version α)} (perm : versions.Perm others) {timeline : Timeline α}
    (flattened : flatten publicCode versions = .ok timeline) :
    flatten publicCode others = .ok timeline := by
  obtain ⟨clashFree, resolves⟩ := Timeline.flatten_eq_ok_iff.mp flattened
  exact Timeline.flatten_eq_ok_iff.mpr
    ⟨(ClashFree.perm perm).mp clashFree, resolves.congr fun _ => perm.mem_iff⟩

namespace QuayGroup

variable {rules : FlatteningRules} {zone : Zone}

theorem flatten_of_perm {code : PublicCode} {versions others : List (Version PlacedQuay)}
    (perm : versions.Perm others) {quays : List Quay}
    (flattened : flatten zone ⟨code, versions⟩ = .ok quays) :
    flatten zone ⟨code, others⟩ = .ok quays := by
  obtain ⟨fragments, resolved, copied⟩ := bind_eq_ok_iff.mp flattened
  exact bind_eq_ok_iff.mpr ⟨fragments, Timeline.flatten_of_perm perm resolved, copied⟩

theorem flattenVersions_of_perm {versions others : List (PublicCode × Version PlacedQuay)}
    (perm : versions.Perm others) {quays : List Quay}
    (flattened : flattenVersions zone versions = .ok quays) :
    flattenVersions zone others = .ok quays := by
  obtain ⟨parts, taken, rfl⟩ := map_eq_ok_iff.mp flattened
  rw [byPublicCode, List.mapM_map, mapM_eq_ok_iff,
    Identifier.distinct_of_perm (perm.map _)] at taken
  refine map_eq_ok_iff.mpr ⟨parts, ?_, rfl⟩
  rw [byPublicCode, List.mapM_map, mapM_eq_ok_iff]
  exact taken.imp fun _ _ copied => flatten_of_perm ((perm.filter _).map _) copied

theorem exists_unplacedVersionsOf_of_perm {quays others : List Quay} (perm : quays.Perm others)
    {versions : List (PublicCode × Version PlacedQuay)}
    (read : unplacedVersionsOf rules quays = .ok versions) :
    ∃ versions', unplacedVersionsOf rules others = .ok versions' ∧ versions.Perm versions' := by
  obtain ⟨found, taken, ⟨rfl⟩⟩ := bind_eq_ok_iff.mp read
  obtain ⟨found', taken', permFound⟩ :=
    List.perm_comp_forall₂ perm.symm (mapM_eq_ok_iff.mp taken)
  exact ⟨_, bind_eq_ok_iff.mpr ⟨found', mapM_eq_ok_iff.mpr taken', rfl⟩,
    permFound.symm.filterMap id⟩

end QuayGroup

open QuayGroup

variable {rules : FlatteningRules} {zone : Zone} {place other : StopPlace}

theorem StopPlace.exists_accepted_of_perm
    (accepted : ∃ q ∈ place.quays, rules.acceptsSource q.sourceType? = true)
    (perm : (rules.imported place.quays).Perm (rules.imported other.quays)) :
    ∃ q ∈ other.quays, rules.acceptsSource q.sourceType? = true := by
  obtain ⟨q, member, accepts⟩ := accepted
  have imported := perm.mem_iff.mp (FlatteningRules.mem_imported.mpr ⟨member, accepts⟩)
  exact ⟨q, FlatteningRules.mem_imported.mp imported⟩

theorem StopPlace.flatten_eq_ok_of_perm
    (accepted : ∃ q ∈ place.quays, rules.acceptsSource q.sourceType? = true)
    (same : { other with quays := place.quays } = place)
    (perm : (rules.imported place.quays).Perm (rules.imported other.quays)) {result : StopPlace}
    (flattened : place.flatten rules zone = .ok result) :
    other.flatten rules zone = .ok result := by
  have otherAccepted := exists_accepted_of_perm accepted perm
  obtain ⟨versions, quays, read, replaced, rfl⟩ :=
    (flatten_eq_ok_iff_flattenVersions accepted).mp flattened
  obtain ⟨others, otherRead, permVersions⟩ := exists_unplacedVersionsOf_of_perm perm read
  exact (flatten_eq_ok_iff_flattenVersions otherAccepted).mpr
    ⟨others, quays, otherRead, flattenVersions_of_perm permVersions replaced, by rw [← same]⟩

/-- Of two stop places with the same imported quays, in whatever order and among whatever other
quays, either none is flattened or both are, into the same stop place. In one order, the fault
reported is the same as well. -/
theorem StopPlace.flatten_of_imported_perm (zone : Zone)
    (accepted : ∃ q ∈ place.quays, rules.acceptsSource q.sourceType? = true)
    (same : { other with quays := place.quays } = place)
    (perm : (rules.imported place.quays).Perm (rules.imported other.quays)) :
    ((∃ error otherError, place.flatten rules zone = .error error ∧
          other.flatten rules zone = .error otherError) ∨
        ∃ result, place.flatten rules zone = .ok result ∧ other.flatten rules zone = .ok result) ∧
      (rules.imported place.quays = rules.imported other.quays →
        place.flatten rules zone = other.flatten rules zone) := by
  have otherAccepted := exists_accepted_of_perm accepted perm
  have otherSame : { place with quays := other.quays } = other := by rw [← same]
  constructor
  · cases flattened : place.flatten rules zone with
    | ok result => exact .inr ⟨result, rfl, flatten_eq_ok_of_perm accepted same perm flattened⟩
    | error error =>
      cases otherFlattened : other.flatten rules zone with
      | error otherError => exact .inl ⟨error, otherError, rfl, rfl⟩
      | ok result =>
        -- What is returned for one place is returned for the other.
        rw [flatten_eq_ok_of_perm otherAccepted otherSame perm.symm otherFlattened] at flattened
        cases flattened
  · intro sameOrder
    rw [StopPlace.flatten_eq accepted, StopPlace.flatten_eq otherAccepted, sameOrder, ← same]

/-- The quays of the place of two versions in another order, after a quay from nowhere. -/
def reorderedVersions : StopPlace :=
  { StopPlace.blank with quays := Quay.blank :: [registeredQuay "draft" "30" "2024-06-01",
      registeredQuay "old" "10" "2024-01-01", registeredQuay "new" "20" "2024-03-01"] }

theorem StopPlace.flatten_of_imported_perm_reorderedVersions :
    (∃ q ∈ twoVersions.quays, FlatteningRules.default.acceptsSource q.sourceType? = true) ∧
    { reorderedVersions with quays := twoVersions.quays } = twoVersions ∧
    (FlatteningRules.default.imported twoVersions.quays).Perm
      (FlatteningRules.default.imported reorderedVersions.quays) ∧
    ∃ result, twoVersions.flatten .default (.fixed (.east 0)) = .ok result ∧
      reorderedVersions.flatten .default (.fixed (.east 0)) = .ok result ∧
      result.quays.length = 2 := by
  have accepted : ∃ q ∈ twoVersions.quays,
      FlatteningRules.default.acceptsSource q.sourceType? = true :=
    ⟨_, List.mem_cons_self, by decide⟩
  have same : { reorderedVersions with quays := twoVersions.quays } = twoVersions := rfl
  have perm : (FlatteningRules.default.imported twoVersions.quays).Perm
      (FlatteningRules.default.imported reorderedVersions.quays) := by
    have imported : FlatteningRules.default.imported reorderedVersions.quays =
        twoVersions.quays.drop 1 ++ twoVersions.quays.take 1 := rfl
    rw [imported]
    exact (List.perm_append_comm.trans (List.Perm.of_eq (List.take_append_drop 1 _))).symm
  refine ⟨accepted, same, perm, ?_⟩
  obtain ⟨place, flattened, length⟩ := exists_flatten_twoVersions
  rcases (flatten_of_imported_perm (.fixed (.east 0)) accepted same perm).1 with
    ⟨error, -, failed, -⟩ | ⟨result, returned, otherReturned⟩
  · rw [flattened] at failed
    cases failed
  · rw [flattened] at returned
    cases returned
    exact ⟨_, flattened, otherReturned, length⟩

end QuayTimeline
