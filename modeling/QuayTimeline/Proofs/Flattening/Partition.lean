import QuayTimeline.Proofs.Flattening.ByDay
import QuayTimeline.Proofs.Flattening.Faults

/-! # Groups as a partition

Groups part the positions of the published quays by their codes: each such position stands in one
group, once, with the validity of its quay. Where a quay is at fault there are no groups, and the
first such quay is reported. -/

namespace QuayTimeline

namespace FlatteningRules

theorem acceptsSource_iff {rules : FlatteningRules} {q : Quay} :
    rules.acceptsSource q.sourceType? = true ↔
      ∃ code, q.privateCode = some code ∧ code.sourceType ∈ rules.sourceTypes := by
  cases given : q.privateCode <;> simp [acceptsSource, Quay.sourceType?, given]

theorem isDraft_eq_false_iff {rules : FlatteningRules} {p : Priority} :
    rules.isDraft p = false ↔ p ≤ rules.maxPriority := by
  simp [isDraft, Priority.lt_def, Priority.le_def]

end FlatteningRules

/-- A quay that was imported from one of the systems, with a validity up to the greatest priority.
-/
structure Quay.IsPublished (rules : FlatteningRules) (q : Quay) (v : Validity) : Prop where
  imported : ∃ code, q.privateCode = some code ∧ code.sourceType ∈ rules.sourceTypes
  validity : VersionKeys.validity q = .ok v
  notAbove : v.priority ≤ rules.maxPriority

theorem Quay.isVersion_iff {rules : FlatteningRules} {q : Quay} {code : PublicCode} {v : Validity} :
    q.IsVersion rules code v ↔ q.IsPublished rules v ∧ q.publicCode = some code := by
  constructor
  · intro ⟨accepted, validity, published, named⟩
    exact ⟨⟨FlatteningRules.acceptsSource_iff.mp accepted, validity,
      FlatteningRules.isDraft_eq_false_iff.mp published⟩, named⟩
  · intro ⟨⟨imported, validity, notAbove⟩, named⟩
    exact ⟨FlatteningRules.acceptsSource_iff.mpr imported, validity,
      FlatteningRules.isDraft_eq_false_iff.mpr notAbove, named⟩

/-- Where quays can be read, a published one has a code. -/
theorem Quay.IsPublished.exists_isVersion {rules : FlatteningRules} {q : Quay} {v : Validity}
    (published : q.IsPublished rules v) (readable : q.IsReadable rules) :
    ∃ code, q.IsVersion rules code v := by
  obtain ⟨w, read, named⟩ := readable (FlatteningRules.acceptsSource_iff.mpr published.imported)
  obtain rfl : w = v := Except.ok.inj (read.symm.trans published.validity)
  obtain ⟨code, named⟩ := named (FlatteningRules.isDraft_eq_false_iff.mpr published.notAbove)
  exact ⟨code, Quay.isVersion_iff.mpr ⟨published, named⟩⟩

namespace QuayGroup

variable {rules : FlatteningRules} {quays : List Quay}
  {versions : List (PublicCode × Version PlacedQuay)}

/-- The positions of the quays in a group. -/
def positions (group : QuayGroup) : List Nat :=
  group.versions.map (·.owner.position)

/-- The positions of the published quays, each in the group of its code. -/
structure IsPartition (rules : FlatteningRules) (quays : List Quay) (groups : List QuayGroup) :
    Prop where
  nodup : (groups.flatMap positions).Nodup
  mem_iff : ∀ i, i ∈ groups.flatMap positions ↔
    ∃ q v, quays[i]? = some q ∧ q.IsPublished rules v
  versions : ∀ group ∈ groups, ∀ w ∈ group.versions,
    quays[w.owner.position]? = some w.owner.quay ∧
      w.owner.quay.publicCode = some group.publicCode ∧
      VersionKeys.validity w.owner.quay = .ok w.validity
  increasing : ∀ group ∈ groups, group.positions.Pairwise (· < ·)
  nonempty : ∀ group ∈ groups, group.versions ≠ []
  ordered : groups.Pairwise fun g h => g.publicCode < h.publicCode

theorem mem_positions {group : QuayGroup} {i : Nat} :
    i ∈ group.positions ↔ ∃ w ∈ group.versions, w.owner.position = i :=
  List.mem_map

theorem exists_versionAt_of_mem_positions (read : versionsOf rules quays = .ok versions)
    {group : QuayGroup} (member : group ∈ byPublicCode versions) {i : Nat}
    (mem : i ∈ group.positions) :
    ∃ w, IsVersionAt rules quays group.publicCode w ∧ w.owner.position = i := by
  obtain ⟨w, memberW, at_⟩ := mem_positions.mp mem
  exact ⟨w, (mem_versionsOf read).mp ((mem_versions_of_mem member).mp memberW), at_⟩

theorem pairwise_positions (read : versionsOf rules quays = .ok versions) {group : QuayGroup}
    (member : group ∈ byPublicCode versions) : group.positions.Pairwise (· < ·) :=
  List.pairwise_map.mpr (isGroupOf_of_mem read member).positions

/-- A quay has one code at most, so its position is in one group at most. -/
theorem nodup_flatMap_positions (read : versionsOf rules quays = .ok versions) :
    ((byPublicCode versions).flatMap positions).Nodup := by
  apply List.nodup_flatMap.mpr
  constructor
  · intro group member
    exact (pairwise_positions read member).imp Nat.ne_of_lt
  · apply (pairwise_byPublicCode versions).imp_of_mem
    intro g h memberG memberH below i memG memH
    obtain ⟨v, versionV, rfl⟩ := exists_versionAt_of_mem_positions read memberG memG
    obtain ⟨w, versionW, same⟩ := exists_versionAt_of_mem_positions read memberH memH
    have sameQuay : w.owner.quay = v.owner.quay :=
      Option.some.inj (versionW.placed.symm.trans (same ▸ versionV.placed))
    have sameCode := Option.some.inj
      (versionV.version.publicCode.symm.trans (sameQuay ▸ versionW.version.publicCode))
    exact Identifier.lt_irrefl _ (sameCode ▸ below)

theorem mem_flatMap_positions_iff (read : versionsOf rules quays = .ok versions) {i : Nat} :
    i ∈ (byPublicCode versions).flatMap positions ↔
      ∃ q v, quays[i]? = some q ∧ q.IsPublished rules v := by
  rw [List.mem_flatMap]
  constructor
  · intro ⟨group, member, mem⟩
    obtain ⟨w, version, rfl⟩ := exists_versionAt_of_mem_positions read member mem
    exact ⟨w.owner.quay, w.validity, version.placed, (Quay.isVersion_iff.mp version.version).1⟩
  · intro ⟨q, v, placed, published⟩
    obtain ⟨code, version⟩ := published.exists_isVersion
      (exists_versionsOf_eq_ok_iff.mp ⟨versions, read⟩ q (List.mem_of_getElem? placed))
    have versionAt : IsVersionAt rules quays code ⟨⟨q, i⟩, v⟩ := ⟨placed, version⟩
    obtain ⟨group, member, -, memberW⟩ := exists_group_of_mem ((mem_versionsOf read).mpr versionAt)
    exact ⟨group, member, mem_positions.mpr ⟨_, memberW, rfl⟩⟩

theorem versions_ne_nil {group : QuayGroup} (member : group ∈ byPublicCode versions) :
    group.versions ≠ [] := by
  obtain ⟨⟨code, w⟩, memberW, same⟩ := List.mem_map.mp (mem_byPublicCode.mp member).1
  obtain rfl : code = group.publicCode := same
  exact List.ne_nil_of_mem ((mem_versions_of_mem member).mpr memberW)

theorem isPartition_byPublicCode (read : versionsOf rules quays = .ok versions) :
    IsPartition rules quays (byPublicCode versions) where
  nodup := nodup_flatMap_positions read
  mem_iff _ := mem_flatMap_positions_iff read
  versions group member w memberW := by
    obtain ⟨placed, version⟩ := ((isGroupOf_of_mem read member).mem_iff w).mp memberW
    exact ⟨placed, version.publicCode, version.validity⟩
  increasing _ member := pairwise_positions read member
  nonempty _ member := versions_ne_nil member
  ordered := pairwise_byPublicCode versions

/-- Groups part the positions of the published quays by their codes, in the order of the codes.
There are none just when a quay is at fault, and then the error is that of the first such quay. -/
theorem ofQuays_partition (rules : FlatteningRules) (quays : List Quay) :
    (∀ groups, ofQuays rules quays = .ok groups → IsPartition rules quays groups) ∧
    ∀ error, ofQuays rules quays = .error error ↔ ∃ before q after,
      quays = before ++ q :: after ∧ (∀ p ∈ before, ∀ e, ¬ p.IsAtFault rules e) ∧
      q.IsAtFault rules error := by
  constructor
  · intro groups grouped
    obtain ⟨versions, read, rfl⟩ := map_eq_ok_iff.mp grouped
    exact isPartition_byPublicCode read
  · intro error
    rw [ofQuays, map_eq_error_iff, versionsOf_eq_error_iff]
    simp only [Quay.isReadable_iff]

/-- Quays of two codes, and among them a draft without a code and a quay from nowhere. -/
def mixedQuays : List Quay :=
  [registeredQuay "new" "20" "2024-03-01",
    { registeredQuay "other" "10" "2024-01-01" with publicCode := Identifier.ofString? "A1" },
    { registeredQuay "draft" "30" "2024-06-01" with publicCode := none },
    Quay.blank,
    registeredQuay "old" "10" "2024-01-01"]

theorem ofQuays_partition_mixedQuays :
    ∃ groups, ofQuays .default mixedQuays = .ok groups ∧
      groups.map positions = [[1], [0, 4]] ∧ IsPartition .default mixedQuays groups := by
  obtain ⟨groups, grouped, placed⟩ : ∃ groups, ofQuays .default mixedQuays = .ok groups ∧
      groups.map positions = [[1], [0, 4]] := ⟨_, by cbv, rfl⟩
  exact ⟨groups, grouped, placed, (ofQuays_partition .default mixedQuays).1 groups grouped⟩

end QuayGroup

end QuayTimeline
