import QuayTimeline.Proofs.Timeline.Flatten

/-! # The days that a splice overwrites

Laid over a flat timeline, a version takes its days from whoever held them, and all other days keep
their holders. Nothing here asks for the version to outrank the fragments it cuts: that it does so
when versions are flattened is due to their order only. -/

namespace QuayTimeline.Timeline

variable {α : Type} {timeline : Timeline α} {next : Version α}

/-- The owner that holds a day, and the priority at which it does. -/
def holder? (timeline : Timeline α) (d : Day) : Option (α × Priority) :=
  (timeline.find? (d ∈ ·.validity)).map fun f => (f.owner, f.validity.priority)

theorem IsFlat.holder?_eq_some_iff (flat : timeline.IsFlat) {d : Day} {owner : α}
    {priority : Priority} : timeline.holder? d = some (owner, priority) ↔
      ∃ f ∈ timeline, d ∈ f.validity ∧ f.owner = owner ∧ f.validity.priority = priority := by
  constructor
  · intro held
    obtain ⟨f, found, same⟩ := Option.map_eq_some_iff.mp held
    obtain ⟨rfl, rfl⟩ := Prod.mk.inj same
    have mem : d ∈ f.validity := by simpa using List.find?_some found
    exact ⟨f, List.mem_of_find?_eq_some found, mem, rfl, rfl⟩
  · rintro ⟨f, member, mem, rfl, rfl⟩
    cases found : timeline.find? (d ∈ ·.validity) with
    | none =>
      have nobody := List.find?_eq_none.mp found f member
      simp [mem] at nobody
    | some g =>
      have memG : d ∈ g.validity := by simpa using List.find?_some found
      obtain rfl := flat.eq_of_mem (List.mem_of_find?_eq_some found) member memG mem
      rw [holder?, found]
      rfl

theorem IsFlat.mem_iff_eq_of_mem_overlay (flat : timeline.IsFlat)
    (covers : next.validity.CoversSomeDay) {d : Day} (mem : d ∈ next.validity) {f : Version α}
    (member : f ∈ timeline.overlay next) : d ∈ f.validity ↔ f = next := by
  constructor
  · intro memF
    exact (flat.overlay covers).eq_of_mem member (mem_overlay.mpr (.inl rfl)) memF mem
  · rintro rfl
    exact mem

/-- What is left of a fragment holds its days for the same owner. -/
theorem IsFlat.holder?_overlay (flat : timeline.IsFlat) (covers : next.validity.CoversSomeDay)
    {d : Day} (outside : d ∉ next.validity) :
    (timeline.overlay next).holder? d = timeline.holder? d := by
  apply Option.ext
  rintro ⟨owner, priority⟩
  rw [(flat.overlay covers).holder?_eq_some_iff, flat.holder?_eq_some_iff]
  constructor
  · rintro ⟨f, member, mem, rfl, rfl⟩
    rcases mem_overlay.mp member with rfl | ⟨existing, memberE, isPart⟩
    · exact absurd mem outside
    · have part := Version.isPartOf_of_part (flat.covers existing memberE) isPart
      have memE := (Version.mem_of_part (flat.covers existing memberE) isPart mem).1
      exact ⟨existing, memberE, memE, part.owner.symm, part.priority.symm⟩
  · rintro ⟨f, member, mem, rfl, rfl⟩
    obtain ⟨piece, isPart, memPiece⟩ := Version.exists_part_of_mem mem outside
    have part := Version.isPartOf_of_part (flat.covers f member) isPart
    exact ⟨piece, mem_overlay.mpr (.inr ⟨f, member, isPart⟩), memPiece, part.owner, part.priority⟩

theorem IsFlat.existsUnique_position (flat : timeline.IsFlat) {f : Version α}
    (member : f ∈ timeline) : ∃! i : Nat, timeline[i]? = some f := by
  obtain ⟨i, atI⟩ := List.mem_iff_getElem?.mp member
  refine ⟨i, atI, fun j atJ => ?_⟩
  obtain ⟨bound, -⟩ := List.getElem?_eq_some_iff.mp atJ
  exact (List.getElem?_inj bound flat.nodup).mp (atJ.trans atI.symm)

/-- A version that covers some day can be laid over any flat timeline, and the timeline stays flat.
It has the version once; the days of the version belong to it, all other days keep their holder or
stay free, and what else is there is a part of what was there before. -/
theorem splice_overwrites [BEq α] [ReflBEq α] (publicCode : String) (flat : timeline.IsFlat)
    (covers : next.validity.CoversSomeDay) :
    ∃ spliced, timeline.splice publicCode next = .ok spliced ∧ spliced.IsFlat ∧
      (∃! i : Nat, spliced[i]? = some next) ∧
      (∀ d ∈ next.validity, ∀ f ∈ spliced, d ∈ f.validity ↔ f = next) ∧
      (∀ d, d ∉ next.validity → spliced.holder? d = timeline.holder? d) ∧
      ∀ f ∈ spliced, f ≠ next → ∃ existing ∈ timeline, f.IsPartOf existing := by
  have flatAfter := flat.overlay covers
  refine ⟨timeline.overlay next, splice_eq_overlay publicCode flat covers, flatAfter,
    ?_, ?_, ?_, ?_⟩
  · exact flatAfter.existsUnique_position (mem_overlay.mpr (.inl rfl))
  · intro d mem f member
    exact flat.mem_iff_eq_of_mem_overlay covers mem member
  · intro d outside
    exact flat.holder?_overlay covers outside
  · intro f member notNext
    rcases mem_overlay.mp member with same | ⟨existing, memberE, isPart⟩
    · exact absurd same notNext
    · exact ⟨existing, memberE, Version.isPartOf_of_part (flat.covers existing memberE) isPart⟩

/-- Three fragments, the last one without an end. -/
def threeFragments : Timeline String :=
  [versionOn "left" 30 1 3, versionOn "inner" 10 4 6,
    versionOn "right" 20 8 Day.last.number].filterMap id

/-- A version that ranks below all three, and reaches into the outer ones. -/
def lowVersion : Version String :=
  (versionOn "low" 5 3 9).get rfl

def overwrittenFragments : Timeline String :=
  [versionOn "left" 30 1 2, some lowVersion,
    versionOn "right" 20 10 Day.last.number].filterMap id

/-- The version is put in beside both cuts and once more for a gap, and is there once. -/
theorem splice_overwrites_threeFragments :
    ReflBEq String ∧ threeFragments.IsFlat ∧ lowVersion.validity.CoversSomeDay ∧
      threeFragments.splice "H1" lowVersion = .ok overwrittenFragments ∧
      (∃! i : Nat, overwrittenFragments[i]? = some lowVersion) ∧
      ∀ d, d ∉ lowVersion.validity → overwrittenFragments.holder? d = threeFragments.holder? d := by
  have flat : threeFragments.IsFlat := ⟨by decide, by decide⟩
  have covers : lowVersion.validity.CoversSomeDay := by decide
  have computed : threeFragments.splice "H1" lowVersion = .ok overwrittenFragments := by cbv
  obtain ⟨spliced, returned, -, once, -, kept, -⟩ := splice_overwrites "H1" flat covers
  obtain rfl := Except.ok.inj (returned.symm.trans computed)
  exact ⟨inferInstance, flat, covers, computed, once, kept⟩

end QuayTimeline.Timeline
