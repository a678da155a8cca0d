import QuayTimeline.Proofs.Timeline.Flatten

/-! # How many fragments there are

In a flat timeline one fragment at most reaches beyond a version on both sides. So a splice splits
one fragment at most, and with the version itself the timeline grows by two. Only the first version
is alone when it is put in. -/

namespace QuayTimeline.Timeline

variable {α : Type} {timeline extended : Timeline α} {next : Version α} {publicCode : String}

/-- After a fragment that reaches beyond a range nothing starts before the range. -/
theorem IsFlat.pairwise_parts (flat : timeline.IsFlat) {range : Validity}
    (covers : range.CoversSomeDay) :
    timeline.Pairwise fun f g => ∀ part, f.partAfter? range = some part →
      g.partBefore? range = none := by
  apply flat.ordered.imp_of_mem
  intro f g memberF memberG later part isAfter
  obtain ⟨-, -, -, endsAfter, -⟩ :=
    (Version.partAfter?_eq_some_iff (flat.covers f memberF)).mp isAfter
  apply Version.partBefore?_eq_none (flat.covers g memberG)
  simp only [Validity.CoversSomeDay, Day.le_def, Day.lt_def] at covers later endsAfter ⊢
  omega

/-- So one fragment at most has parts on both sides. -/
theorem length_parts_le {range : Validity} (apart : timeline.Pairwise fun f g => ∀ part,
      f.partAfter? range = some part → g.partBefore? range = none) :
    (timeline.filterMap (·.partBefore? range)).length +
      (timeline.filterMap (·.partAfter? range)).length ≤ timeline.length + 1 := by
  induction timeline with
  | nil => simp
  | cons f rest ih =>
    obtain ⟨noneBefore, apartRest⟩ := List.pairwise_cons.mp apart
    have restLe := ih apartRest
    have beforeLe : ([f].filterMap (·.partBefore? range)).length ≤ 1 :=
      List.length_filterMap_le _ [f]
    have before : (f :: rest).filterMap (·.partBefore? range) =
        [f].filterMap (·.partBefore? range) ++ rest.filterMap (·.partBefore? range) :=
      List.filterMap_append (l := [f])
    cases isAfter : f.partAfter? range with
    | none =>
      have after : (f :: rest).filterMap (·.partAfter? range) =
          rest.filterMap (·.partAfter? range) := List.filterMap_cons_none isAfter
      simp only [before, after, List.length_append, List.length_cons]
      omega
    | some part =>
      have afterLe := List.length_filterMap_le (·.partAfter? range) (f :: rest)
      have nothing : rest.filterMap (·.partBefore? range) = [] :=
        List.filterMap_eq_nil_iff.mpr fun g member => noneBefore g member part isAfter
      simp only [before, nothing, List.append_nil, List.length_cons] at afterLe ⊢
      omega

theorem IsFlat.length_overlay_le (flat : timeline.IsFlat) (covers : next.validity.CoversSomeDay) :
    (timeline.overlay next).length ≤ timeline.length + 2 := by
  have partsLe := length_parts_le (flat.pairwise_parts covers)
  simp only [Timeline.overlay, List.length_append, List.length_cons]
  omega

/-- What holds of the length of a timeline after so many splices. -/
structure IsBounded (splices : Nat) (timeline : Timeline α) : Prop where
  flat : timeline.IsFlat
  pos : 1 ≤ splices → 1 ≤ timeline.length
  length_le : timeline.length ≤ 2 * splices - 1

theorem IsBounded.nil : IsBounded 0 ([] : Timeline α) :=
  ⟨.nil, by simp, by simp⟩

theorem IsBounded.overlay {splices : Nat} (bounded : timeline.IsBounded splices)
    (covers : next.validity.CoversSomeDay) : (timeline.overlay next).IsBounded (splices + 1) where
  flat := bounded.flat.overlay covers
  pos _ := List.length_pos_of_mem (mem_overlay.mpr (.inl rfl))
  length_le := by
    have le := bounded.length_le
    cases splices with
    | zero =>
      -- Nothing is there to be split.
      obtain rfl : timeline = [] := List.length_eq_zero_iff.mp (by omega)
      exact Nat.le_refl 1
    | succ splices =>
      have grown := bounded.flat.length_overlay_le covers
      omega

theorem IsBounded.add [BEq α] [ReflBEq α] {taken : List (Version α)}
    (bounded : timeline.IsBounded (taken.countP (·.validity.CoversSomeDay)))
    (added : timeline.add publicCode next = .ok extended) :
    extended.IsBounded ((taken ++ [next]).countP (·.validity.CoversSomeDay)) := by
  rw [List.countP_append, List.countP_singleton]
  rcases bounded.flat.eq_of_add added with ⟨covers, rfl⟩ | ⟨empty, rfl⟩
  · simpa [covers] using bounded.overlay covers
  · simpa [empty] using bounded

/-- A timeline has a fragment if some version covers a day, and if `n` of them do it has at most
`2 * n - 1`. -/
theorem length_of_flatten [BEq α] [ReflBEq α] {versions : List (Version α)}
    (flattened : flatten publicCode versions = .ok timeline)
    (someCover : 1 ≤ versions.countP (·.validity.CoversSomeDay)) :
    1 ≤ timeline.length ∧
      timeline.length ≤ 2 * versions.countP (·.validity.CoversSomeDay) - 1 := by
  have perm := List.mergeSort_perm versions Version.precedes
  have bounded := foldlM_induction
    (motive := fun taken timeline => IsBounded (taken.countP (·.validity.CoversSomeDay)) timeline)
    .nil (fun _ _ _ _ _ _ bounded added => bounded.add added) flattened
  rw [perm.countP_eq] at bounded
  exact ⟨bounded.pos someCover, bounded.length_le⟩

/-- Three versions one inside the other, and one that covers no day. -/
def threeTiers : List (Version String) :=
  [versionOn "outer" 10 1 9, versionOn "inner" 30 5 5, versionOn "none" 40 9 1,
    versionOn "middle" 20 3 7].filterMap id

/-- The outer two are both split, so the three make five fragments. -/
theorem length_of_flatten_threeTiers :
    ReflBEq String ∧ threeTiers.countP (·.validity.CoversSomeDay) = 3 ∧
      ∃ timeline, flatten "H1" threeTiers = .ok timeline ∧ timeline.length = 5 ∧
        1 ≤ timeline.length ∧
        timeline.length ≤ 2 * threeTiers.countP (·.validity.CoversSomeDay) - 1 := by
  obtain ⟨timeline, flattened, five⟩ :
      ∃ timeline, flatten "H1" threeTiers = .ok timeline ∧ timeline.length = 5 :=
    ⟨_, by cbv, rfl⟩
  have bounds := length_of_flatten flattened (by decide)
  exact ⟨inferInstance, by decide, timeline, flattened, five, bounds⟩

end QuayTimeline.Timeline
