import QuayTimeline.Proofs.Timeline.Flatten

/-! # Owners

Flattening moves the owners of versions about, but decides by days and priorities only. So versions
may be given other owners before or after: the timeline is the same, and so is the error. -/

namespace QuayTimeline

variable {α β : Type}

/-- The same version of another owner. -/
def Version.rename (f : α → β) (v : Version α) : Version β :=
  ⟨f v.owner, v.validity⟩

namespace Version

theorem partBefore?_rename (f : α → β) (v : Version α) (range : Validity) :
    (v.rename f).partBefore? range = (v.partBefore? range).map (rename f) := by
  rw [partBefore?, partBefore?, apply_ite (Option.map (rename f)), Option.map_map]
  rfl

theorem partAfter?_rename (f : α → β) (v : Version α) (range : Validity) :
    (v.rename f).partAfter? range = (v.partAfter? range).map (rename f) := by
  rw [partAfter?, partAfter?, apply_ite (Option.map (rename f)), Option.map_map]
  rfl

end Version

namespace Timeline

theorem overlay_rename (f : α → β) (timeline : Timeline α) (next : Version α) :
    overlay (timeline.map (Version.rename f)) (next.rename f) =
      (timeline.overlay next).map (Version.rename f) := by
  simp only [overlay, List.map_append, List.map_cons, List.map_filterMap, List.filterMap_map,
    Function.comp_def, Version.partBefore?_rename, Version.partAfter?_rename]
  rfl

theorem IsFlat.rename {timeline : Timeline α} (flat : timeline.IsFlat) (f : α → β) :
    IsFlat (timeline.map (Version.rename f)) where
  covers := List.forall_mem_map.mpr flat.covers
  ordered := List.pairwise_map.mpr flat.ordered

variable [BEq α] [ReflBEq α] [BEq β] [ReflBEq β]

theorem IsFlat.add {publicCode : String} {timeline extended : Timeline α} (flat : timeline.IsFlat)
    {next : Version α} (added : timeline.add publicCode next = .ok extended) :
    extended.IsFlat := by
  rcases flat.eq_of_add added with ⟨covers, rfl⟩ | ⟨-, rfl⟩
  · exact flat.overlay covers
  · exact flat

theorem add_rename (f : α → β) (publicCode : String) {timeline : Timeline α}
    (flat : timeline.IsFlat) (next : Version α) :
    add publicCode (timeline.map (Version.rename f)) (next.rename f) =
      List.map (Version.rename f) <$> timeline.add publicCode next := by
  have found : (timeline.map (Version.rename f)).find?
      (·.validity.ConflictsWith (next.rename f).validity) =
      (timeline.find? (·.validity.ConflictsWith next.validity)).map (Version.rename f) :=
    List.find?_map
  by_cases covers : next.validity.CoversSomeDay
  · have coversRenamed : (next.rename f).validity.CoversSomeDay := covers
    rw [add, add, if_pos covers, if_pos coversRenamed, found]
    cases timeline.find? (·.validity.ConflictsWith next.validity) with
    | some existing => rfl
    | none =>
      simp only [Option.map_none]
      rw [splice_eq_overlay publicCode flat covers,
        splice_eq_overlay publicCode (flat.rename f) coversRenamed, overlay_rename]
      rfl
  · have emptyRenamed : ¬ (next.rename f).validity.CoversSomeDay := covers
    rw [add, add, if_neg covers, if_neg emptyRenamed]
    rfl

theorem foldlM_add_rename (f : α → β) (publicCode : String) {timeline : Timeline α}
    (flat : timeline.IsFlat) (versions : List (Version α)) :
    (versions.map (Version.rename f)).foldlM (add publicCode)
        (timeline.map (Version.rename f)) =
      List.map (Version.rename f) <$> versions.foldlM (add publicCode) timeline := by
  induction versions generalizing timeline with
  | nil => rfl
  | cons next rest ih =>
    rw [List.map_cons, List.foldlM_cons, List.foldlM_cons, add_rename f publicCode flat]
    cases added : timeline.add publicCode next with
    | error error => rfl
    | ok extended => exact ih (flat.add added)

/-- Versions of other owners are flattened in the same way. -/
theorem flatten_rename (f : α → β) (publicCode : String) (versions : List (Version α)) :
    flatten publicCode (versions.map (Version.rename f)) =
      List.map (Version.rename f) <$> flatten publicCode versions := by
  have sameOrder : ∀ v ∈ versions, ∀ w ∈ versions,
      v.precedes w = (v.rename f).precedes (w.rename f) := fun _ _ _ _ => rfl
  rw [flatten, ← List.map_mergeSort sameOrder]
  exact foldlM_add_rename f publicCode .nil _

end Timeline

end QuayTimeline
