import QuayTimeline.Proofs.Outcome
import QuayTimeline.Proofs.Record.Identifier
import QuayTimeline.Proofs.Record.VersionKeys
import QuayTimeline.QuayGroup

/-! # What is in a group

The versions of a public code are the published quays of that code, each with its position and the
validity that its key values hold. Grouping succeeds when every quay that counts can be read. -/

namespace QuayTimeline

open Timeline

/-- A quay that counts as a version of a code: imported, readable and no draft. -/
structure Quay.IsVersion (rules : FlatteningRules) (q : Quay) (code : PublicCode)
    (v : Validity) : Prop where
  accepted : rules.acceptsSource q.sourceType? = true
  validity : VersionKeys.validity q = .ok v
  published : rules.isDraft v.priority = false
  publicCode : q.publicCode = some code

theorem Quay.IsVersion.unique {rules : FlatteningRules} {q : Quay} {code other : PublicCode}
    {v w : Validity} (first : q.IsVersion rules code v) (second : q.IsVersion rules other w) :
    code = other ∧ v = w :=
  ⟨Option.some.inj (first.publicCode.symm.trans second.publicCode),
    Except.ok.inj (first.validity.symm.trans second.validity)⟩

/-- A quay that can be grouped: if it counts, its validity is there, and its code unless it is
a draft. -/
def Quay.IsReadable (rules : FlatteningRules) (q : Quay) : Prop :=
  rules.acceptsSource q.sourceType? = true →
    ∃ v, VersionKeys.validity q = .ok v ∧
      (rules.isDraft v.priority = false → ∃ code, q.publicCode = some code)

namespace QuayGroup

variable {rules : FlatteningRules} {quays : List Quay}

/-! ## One quay -/

theorem version?_eq_ok_some_iff {placed : PlacedQuay} {code : PublicCode}
    {w : Version PlacedQuay} :
    version? rules placed = .ok (some (code, w)) ↔
      placed.quay.IsVersion rules code w.validity ∧ w.owner = placed := by
  constructor
  · intro returned
    rw [version?] at returned
    split at returned
    next accepted =>
      obtain ⟨v, read, returned⟩ := bind_eq_ok_iff.mp returned
      split at returned
      next => cases returned
      next notDraft =>
        split at returned
        next named =>
          cases returned
          exact ⟨⟨accepted, read, Bool.eq_false_iff.mpr notDraft, named⟩, rfl⟩
        next => cases returned
    next => cases returned
  · rintro ⟨⟨accepted, read, published, named⟩, rfl⟩
    simp only [version?, accepted, read, published, named, if_true, ok_bind]
    rfl

theorem exists_version?_eq_ok_iff {placed : PlacedQuay} :
    (∃ found, version? rules placed = .ok found) ↔ placed.quay.IsReadable rules := by
  constructor
  · rintro ⟨found, returned⟩ accepted
    rw [version?, if_pos accepted] at returned
    obtain ⟨v, read, returned⟩ := bind_eq_ok_iff.mp returned
    refine ⟨v, read, fun published => ?_⟩
    rw [if_neg (Bool.eq_false_iff.mp published)] at returned
    split at returned
    next code named => exact ⟨code, named⟩
    next => cases returned
  · intro readable
    by_cases accepted : rules.acceptsSource placed.quay.sourceType? = true
    · obtain ⟨v, read, named⟩ := readable accepted
      rw [version?, if_pos accepted, read, ok_bind]
      split
      next => exact ⟨none, rfl⟩
      next notDraft =>
        obtain ⟨code, named⟩ := named (Bool.eq_false_iff.mpr notDraft)
        rw [named]
        exact ⟨_, rfl⟩
    · rw [version?, if_neg accepted]
      exact ⟨none, rfl⟩

/-! ## The versions of a stop place -/

/-- A version among quays, where its owner says, under its code. -/
structure IsVersionAt (rules : FlatteningRules) (quays : List Quay) (code : PublicCode)
    (w : Version PlacedQuay) : Prop where
  placed : quays[w.owner.position]? = some w.owner.quay
  version : w.owner.quay.IsVersion rules code w.validity

theorem mem_versionsOf {versions : List (PublicCode × Version PlacedQuay)}
    (returned : versionsOf rules quays = .ok versions) {code : PublicCode}
    {w : Version PlacedQuay} : (code, w) ∈ versions ↔ IsVersionAt rules quays code w := by
  obtain ⟨found, taken, ⟨rfl⟩⟩ := bind_eq_ok_iff.mp returned
  rw [List.mem_filterMap]
  simp only [id_eq, exists_eq_right]
  -- What was found for a quay stands in the list just when that quay has this version.
  rw [mem_of_mapM_eq_ok taken]
  constructor
  · rintro ⟨⟨q, i⟩, member, read⟩
    obtain ⟨version, owner⟩ := version?_eq_ok_some_iff.mp read
    have placed := List.mk_mem_zipIdx_iff_getElem?.mp member
    exact ⟨by rw [owner]; exact placed, by rw [owner]; exact version⟩
  · rintro ⟨placed, version⟩
    refine ⟨(w.owner.quay, w.owner.position), List.mk_mem_zipIdx_iff_getElem?.mpr placed, ?_⟩
    exact version?_eq_ok_some_iff.mpr ⟨version, rfl⟩

theorem exists_versionsOf_eq_ok_iff :
    (∃ versions, versionsOf rules quays = .ok versions) ↔ ∀ q ∈ quays, q.IsReadable rules := by
  constructor
  · rintro ⟨versions, returned⟩ q member
    obtain ⟨found, taken, -⟩ := bind_eq_ok_iff.mp returned
    obtain ⟨i, placed⟩ := List.mem_iff_getElem?.mp member
    exact exists_version?_eq_ok_iff.mp (exists_mapM_eq_ok_iff.mp ⟨found, taken⟩ (q, i)
      (List.mk_mem_zipIdx_iff_getElem?.mpr placed))
  · intro readable
    have each : ∀ p ∈ quays.zipIdx, ∃ found, version? rules ⟨p.1, p.2⟩ = .ok found :=
      fun p member =>
        exists_version?_eq_ok_iff.mpr (readable p.1 (List.fst_mem_of_mem_zipIdx member))
    obtain ⟨found, taken⟩ := exists_mapM_eq_ok_iff.mpr each
    exact ⟨_, bind_eq_ok_iff.mpr ⟨found, taken, rfl⟩⟩

/-- Versions come in the order of their positions. -/
theorem pairwise_versionsOf {versions : List (PublicCode × Version PlacedQuay)}
    (returned : versionsOf rules quays = .ok versions) :
    versions.Pairwise fun e f => e.2.owner.position < f.2.owner.position := by
  obtain ⟨found, taken, ⟨rfl⟩⟩ := bind_eq_ok_iff.mp returned
  have positions : quays.zipIdx.Pairwise fun p r => p.2 < r.2 := by
    refine List.pairwise_map.mp ?_
    rw [List.zipIdx_map_snd]
    exact List.pairwise_lt_range' 1
  refine List.pairwise_filterMap.mpr
    (pairwise_of_forall₂ (mapM_eq_ok_iff.mp taken) ?_ positions)
  rintro ⟨q, i⟩ ⟨r, j⟩ _ _ first second before e rfl f rfl
  rw [(version?_eq_ok_some_iff.mp first).2, (version?_eq_ok_some_iff.mp second).2]
  exact before

/-! ## The groups -/

variable {versions : List (PublicCode × Version PlacedQuay)}

theorem pairwise_byPublicCode (versions : List (PublicCode × Version PlacedQuay)) :
    (byPublicCode versions).Pairwise fun g h => g.publicCode < h.publicCode :=
  List.pairwise_map.mpr (Identifier.pairwise_distinct _)

theorem mem_byPublicCode {group : QuayGroup} :
    group ∈ byPublicCode versions ↔ group.publicCode ∈ versions.map (·.1) ∧
      group.versions = (versions.filter (·.1 = group.publicCode)).map (·.2) := by
  rw [byPublicCode, List.mem_map]
  constructor
  · rintro ⟨code, member, rfl⟩
    exact ⟨Identifier.mem_distinct.mp member, rfl⟩
  · rintro ⟨member, same⟩
    refine ⟨group.publicCode, Identifier.mem_distinct.mpr member, ?_⟩
    rw [← same]

theorem mem_versions_of_mem {group : QuayGroup} (member : group ∈ byPublicCode versions)
    {w : Version PlacedQuay} : w ∈ group.versions ↔ (group.publicCode, w) ∈ versions := by
  rw [(mem_byPublicCode.mp member).2]
  simp

theorem exists_group_of_mem {code : PublicCode} {w : Version PlacedQuay}
    (member : (code, w) ∈ versions) :
    ∃ group ∈ byPublicCode versions, group.publicCode = code ∧ w ∈ group.versions := by
  have found : (⟨code, (versions.filter (·.1 = code)).map (·.2)⟩ : QuayGroup) ∈
      byPublicCode versions :=
    mem_byPublicCode.mpr ⟨List.mem_map.mpr ⟨_, member, rfl⟩, rfl⟩
  exact ⟨_, found, rfl, (mem_versions_of_mem found).mpr member⟩

end QuayGroup

end QuayTimeline
