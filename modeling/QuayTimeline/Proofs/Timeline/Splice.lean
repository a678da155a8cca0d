import QuayTimeline.Proofs.Timeline.Cuts
import Mathlib.Algebra.Order.Group.Multiset
import Mathlib.Data.List.Pairwise
import Mathlib.Tactic.Abel

/-! # Splicing into a flat timeline

Both ways of splicing come to the same: what lies before the version, the version once, what lies
after it. The closed one puts a copy of the version beside every cut and leaves it to the sort to
bring all copies together, which works because in a flat timeline no two starts are equal. -/

namespace QuayTimeline

namespace Timeline

open scoped List

variable {α : Type}

/-- Fragments that each cover some day and follow each other in time. -/
structure IsFlat (timeline : Timeline α) : Prop where
  covers : ∀ f ∈ timeline, f.validity.CoversSomeDay
  ordered : timeline.Pairwise fun f g => f.validity.last < g.validity.start

/-- What lies before a version, the version, what lies after it. -/
def overlay (timeline : Timeline α) (next : Version α) : Timeline α :=
  timeline.filterMap (·.partBefore? next.validity) ++
    next :: timeline.filterMap (·.partAfter? next.validity)

/-! ## Flat timelines -/

theorem IsFlat.nil : IsFlat ([] : Timeline α) :=
  ⟨by simp, .nil⟩

/-- In a flat timeline the fragments start in strict order. -/
theorem IsFlat.starts {timeline : Timeline α} (flat : timeline.IsFlat) :
    timeline.Pairwise fun f g => f.validity.start < g.validity.start := by
  refine flat.ordered.imp_of_mem fun {f g} member _ before => ?_
  exact Int.lt_of_le_of_lt (flat.covers f member) before

/-- A day belongs to one fragment of a flat timeline at most. -/
theorem IsFlat.eq_of_mem {timeline : Timeline α} (flat : timeline.IsFlat) {f g : Version α}
    (memberF : f ∈ timeline) (memberG : g ∈ timeline) {d : Day} (memF : d ∈ f.validity)
    (memG : d ∈ g.validity) : f = g := by
  by_contra distinct
  have apart := flat.ordered.imp (S := fun f g => ¬ ∃ d, d ∈ f.validity ∧ d ∈ g.validity)
    fun before ⟨d, memF, memG⟩ => by
      have last := memF.2
      have start := memG.1
      simp only [Day.le_def, Day.lt_def] at before last start
      omega
  have symmetric : Std.Symm fun f g : Version α => ¬ ∃ d, d ∈ f.validity ∧ d ∈ g.validity :=
    ⟨fun f g apart ⟨d, memG, memF⟩ => apart ⟨d, memF, memG⟩⟩
  exact apart.forall memberF memberG distinct ⟨d, memF, memG⟩

theorem IsFlat.pairwise_not_overlaps {timeline : Timeline α} (flat : timeline.IsFlat) :
    timeline.Pairwise fun f g => ¬ f.validity.Overlaps g.validity := by
  apply flat.ordered.imp
  intro f g before overlaps
  exact Int.lt_irrefl _ (Int.lt_of_lt_of_le before overlaps.2)

theorem IsFlat.nodup {timeline : Timeline α} (flat : timeline.IsFlat) : timeline.Nodup :=
  flat.starts.imp fun before same => by
    subst same
    exact Int.lt_irrefl _ before

/-- Flat timelines with the same fragments are equal. -/
theorem IsFlat.eq_of_mem_iff {timeline other : Timeline α} (flat : timeline.IsFlat)
    (otherFlat : other.IsFlat) (same : ∀ f, f ∈ timeline ↔ f ∈ other) : timeline = other := by
  refine List.Perm.eq_of_pairwise (fun f g _ _ before after => ?_) flat.starts otherFlat.starts
    ((List.perm_ext_iff_of_nodup flat.nodup otherFlat.nodup).mpr same)
  exact absurd (Int.lt_trans before after) (Int.lt_irrefl _)

/-! ## The overlay -/

theorem mem_overlay {timeline : Timeline α} {next f : Version α} :
    f ∈ timeline.overlay next ↔ f = next ∨
      ∃ existing ∈ timeline, existing.partBefore? next.validity = some f ∨
        existing.partAfter? next.validity = some f := by
  simp only [overlay, List.mem_append, List.mem_filterMap, List.mem_cons]
  constructor
  · rintro (⟨existing, member, part⟩ | rfl | ⟨existing, member, part⟩)
    · exact .inr ⟨existing, member, .inl part⟩
    · exact .inl rfl
    · exact .inr ⟨existing, member, .inr part⟩
  · rintro (rfl | ⟨existing, member, part | part⟩)
    · exact .inr (.inl rfl)
    · exact .inl ⟨existing, member, part⟩
    · exact .inr (.inr ⟨existing, member, part⟩)

theorem coversSomeDay_of_mem_overlay {timeline : Timeline α} {next f : Version α}
    (covers : ∀ f ∈ timeline, f.validity.CoversSomeDay) (nextCovers : next.validity.CoversSomeDay)
    (member : f ∈ timeline.overlay next) : f.validity.CoversSomeDay := by
  rcases mem_overlay.mp member with rfl | ⟨existing, memberE, isPart | isPart⟩
  · exact nextCovers
  · exact Version.coversSomeDay_of_partBefore? (covers existing memberE) isPart
  · exact Version.coversSomeDay_of_partAfter? (covers existing memberE) isPart

/-- The parts of a flat timeline before a range are flat and end before it. -/
theorem IsFlat.partsBefore {timeline : Timeline α} (flat : timeline.IsFlat) (range : Validity) :
    IsFlat (timeline.filterMap (·.partBefore? range)) ∧
      ∀ part ∈ timeline.filterMap (·.partBefore? range), part.validity.last < range.start := by
  have spec : ∀ f ∈ timeline, ∀ part, f.partBefore? range = some part → _ :=
    fun f member part => (Version.partBefore?_eq_some_iff (flat.covers f member)).mp
  refine ⟨⟨fun part member => ?_, ?_⟩, fun part member => ?_⟩
  · obtain ⟨f, memberF, isPart⟩ := List.mem_filterMap.mp member
    exact Version.coversSomeDay_of_partBefore? (flat.covers f memberF) isPart
  · refine List.pairwise_filterMap.mpr (flat.ordered.imp_of_mem ?_)
    intro f g memberF memberG before part isPartF other isPartG
    obtain ⟨-, -, -, -, last⟩ := spec f memberF part isPartF
    obtain ⟨-, -, start, -, -⟩ := spec g memberG other isPartG
    simp only [Day.lt_def, start] at *
    omega
  · obtain ⟨f, memberF, isPart⟩ := List.mem_filterMap.mp member
    obtain ⟨-, -, -, -, last⟩ := spec f memberF part isPart
    simp only [Day.lt_def]
    omega

/-- The parts of a flat timeline after a range are flat and start after it. -/
theorem IsFlat.partsAfter {timeline : Timeline α} (flat : timeline.IsFlat) (range : Validity) :
    IsFlat (timeline.filterMap (·.partAfter? range)) ∧
      ∀ part ∈ timeline.filterMap (·.partAfter? range), range.last < part.validity.start := by
  have spec : ∀ f ∈ timeline, ∀ part, f.partAfter? range = some part → _ :=
    fun f member part => (Version.partAfter?_eq_some_iff (flat.covers f member)).mp
  refine ⟨⟨fun part member => ?_, ?_⟩, fun part member => ?_⟩
  · obtain ⟨f, memberF, isPart⟩ := List.mem_filterMap.mp member
    exact Version.coversSomeDay_of_partAfter? (flat.covers f memberF) isPart
  · refine List.pairwise_filterMap.mpr (flat.ordered.imp_of_mem ?_)
    intro f g memberF memberG before part isPartF other isPartG
    obtain ⟨-, -, last, -, -⟩ := spec f memberF part isPartF
    obtain ⟨-, -, -, -, start⟩ := spec g memberG other isPartG
    simp only [Day.lt_def, last] at *
    omega
  · obtain ⟨f, memberF, isPart⟩ := List.mem_filterMap.mp member
    obtain ⟨-, -, -, -, start⟩ := spec f memberF part isPart
    simp only [Day.lt_def]
    omega

theorem IsFlat.overlay {timeline : Timeline α} (flat : timeline.IsFlat) {next : Version α}
    (covers : next.validity.CoversSomeDay) : IsFlat (timeline.overlay next) := by
  obtain ⟨flatBefore, before⟩ := flat.partsBefore next.validity
  obtain ⟨flatAfter, after⟩ := flat.partsAfter next.validity
  refine ⟨fun f member => coversSomeDay_of_mem_overlay flat.covers covers member,
    List.pairwise_append.mpr ⟨flatBefore.ordered, ?_, ?_⟩⟩
  · exact List.pairwise_cons.mpr ⟨after, flatAfter.ordered⟩
  · intro f memberF g memberG
    rcases List.mem_cons.mp memberG with rfl | memberG
    · exact before f memberF
    -- A part before the version and one after it have the version between them.
    · have endsBefore := before f memberF
      have startsAfter := after g memberG
      simp only [Validity.CoversSomeDay, Day.le_def, Day.lt_def] at *
      omega

/-! ## Open-ended versions -/

theorem cutByIndefinite?_eq_partBefore? {existing next : Version α}
    (covers : existing.validity.CoversSomeDay) (indefinite : next.validity.IsIndefinite) :
    existing.cutByIndefinite? next = existing.partBefore? next.validity := by
  -- An open end comes after every start, so the overlap rests on the other bound alone.
  have startLe : existing.validity.start ≤ next.validity.last :=
    indefinite.symm ▸ Day.le_last _
  simp only [Version.cutByIndefinite?, Version.partBefore?, Validity.StartsBefore,
    Validity.Overlaps, startLe, true_and]
  simp only [Validity.CoversSomeDay, Day.le_def, Day.lt_def] at *
  by_cases startsBefore : existing.validity.start.number < next.validity.start.number
  · by_cases overlaps : next.validity.start.number ≤ existing.validity.last.number
    · simp [startsBefore, overlaps, Int.not_lt.mpr overlaps]
    · simp [startsBefore, overlaps, Int.not_le.mp overlaps]
  · have notBefore : ¬ existing.validity.last.number < next.validity.start.number := by omega
    have noPart : existing.validity.endingBefore? next.validity.start = none := by
      refine Option.eq_none_iff_forall_not_mem.mpr fun part isPart => startsBefore ?_
      exact (Validity.endingBefore?_eq_some_iff.mp isPart).2.2.2
    simp [startsBefore, notBefore, noPart]

/-- What an open-ended version leaves keeps its start, which lies before that version. -/
theorem start_of_cutByIndefinite? {existing next part : Version α}
    (covers : existing.validity.CoversSomeDay) (indefinite : next.validity.IsIndefinite)
    (isPart : existing.cutByIndefinite? next = some part) :
    part.validity.start = existing.validity.start ∧ part.validity.start < next.validity.start := by
  rw [cutByIndefinite?_eq_partBefore? covers indefinite] at isPart
  obtain ⟨-, -, start, before, -⟩ := (Version.partBefore?_eq_some_iff covers).mp isPart
  exact ⟨start, start ▸ before⟩

theorem spliceIndefinite_eq_overlay {timeline : Timeline α}
    (covers : ∀ f ∈ timeline, f.validity.CoversSomeDay) {next : Version α}
    (indefinite : next.validity.IsIndefinite) :
    timeline.spliceIndefinite next = timeline.overlay next := by
  have before : timeline.filterMap (·.cutByIndefinite? next) =
      timeline.filterMap (·.partBefore? next.validity) :=
    List.filterMap_congr fun f member =>
      cutByIndefinite?_eq_partBefore? (covers f member) indefinite
  have after : timeline.filterMap (·.partAfter? next.validity) = [] := by
    refine List.filterMap_eq_nil_iff.mpr fun f _ => ?_
    have notLater : ¬ next.validity.last < f.validity.start :=
      indefinite.symm ▸ Int.not_lt.mpr (Day.le_last _)
    simp only [Version.partAfter?, notLater, if_false, indefinite.symm ▸
      Validity.startingAfter?_last f.validity, Option.map_none]
  rw [spliceIndefinite, overlay, before, after]

/-! ## Closed versions -/

/-- A closed version leaves of a fragment the parts on both sides, and puts itself in between
where it cuts one off, which it does only of a fragment that it overlaps. -/
theorem cutByClosed_eq {existing next : Version α} (publicCode : String)
    (covers : existing.validity.CoversSomeDay) (nextCovers : next.validity.CoversSomeDay) :
    ∃ copies, (copies ≠ 0 → existing.validity.Overlaps next.validity) ∧
      existing.cutByClosed publicCode next =
        .ok ((existing.partBefore? next.validity).toList ++ List.replicate copies next ++
          (existing.partAfter? next.validity).toList) := by
  have noBefore : _ → existing.partBefore? next.validity = none :=
    Version.partBefore?_eq_none covers
  have noAfter : _ → existing.partAfter? next.validity = none :=
    Version.partAfter?_eq_none covers
  have whole := Version.parts_of_not_overlaps covers nextCovers
  simp only [Version.cutByClosed, Validity.IsWithin, Validity.StartsBefore, Validity.EndsAfter]
  simp only [Validity.CoversSomeDay, Day.le_def, Day.lt_def] at covers nextCovers noBefore noAfter ⊢
  -- Dropped, as it lies within the version.
  split
  next within =>
    exact ⟨0, by simp, by simp [noBefore (by omega), noAfter (by omega)]⟩
  -- Kept, as it lies on one side of the version.
  split
  next outside apart =>
    rcases whole apart with ⟨before, after⟩ | ⟨before, after⟩
    · exact ⟨0, by simp, by simp [before, after]⟩
    · exact ⟨0, by simp, by simp [before, after]⟩
  next outside overlaps =>
    have overlaps := not_not.mp overlaps
    have shared := overlaps
    simp only [Validity.Overlaps, Day.le_def] at overlaps
    have notEarlier : ¬ existing.validity.last < next.validity.start := by
      rw [Day.lt_def]
      omega
    have notLater : ¬ next.validity.last < existing.validity.start := by
      rw [Day.lt_def]
      omega
    have before : existing.partBefore? next.validity =
        (existing.validity.endingBefore? next.validity.start).map existing.withValidity :=
      if_neg notEarlier
    have after : existing.partAfter? next.validity =
        (existing.validity.startingAfter? next.validity.last).map existing.withValidity :=
      if_neg notLater
    rw [← before, ← after]
    -- Split in two, cut on one side, or cut on the other. Nothing else can be.
    split
    · exact ⟨1, fun _ => shared, by simp⟩
    split
    · exact ⟨1, fun _ => shared, by simp [noAfter (by omega)]⟩
    split
    · exact ⟨1, fun _ => shared, by simp [noBefore (by omega)]⟩
    · omega

/-- Over fragments that cover some day the closed splice collects the parts on both sides, and
copies of the version where it overlaps a fragment. -/
theorem mapM_cutByClosed_perm (publicCode : String) {next : Version α}
    (nextCovers : next.validity.CoversSomeDay) {timeline : Timeline α}
    (covers : ∀ f ∈ timeline, f.validity.CoversSomeDay) :
    ∃ pieces copies, (copies ≠ 0 → ∃ f ∈ timeline, f.validity.Overlaps next.validity) ∧
      timeline.mapM (fun f => f.cutByClosed publicCode next) = .ok pieces ∧
      pieces.flatten.Perm (timeline.filterMap (·.partBefore? next.validity) ++
        (List.replicate copies next ++ timeline.filterMap (·.partAfter? next.validity))) := by
  induction timeline with
  | nil => exact ⟨[], 0, by simp, rfl, by simp⟩
  | cons f rest ih =>
    obtain ⟨copies, overlaps, cut⟩ := cutByClosed_eq publicCode (covers f (by simp)) nextCovers
    obtain ⟨pieces, restCopies, overlapsRest, cutRest, perm⟩ :=
      ih fun g member => covers g (by simp [member])
    have split (part : Version α → Option (Version α)) :
        (f :: rest).filterMap part = (part f).toList ++ rest.filterMap part := by
      cases isPart : part f <;> simp [isPart]
    refine ⟨((f.partBefore? next.validity).toList ++ List.replicate copies next ++
      (f.partAfter? next.validity).toList) :: pieces, copies + restCopies, ?_, ?_, ?_⟩
    · intro some_
      by_cases here : copies = 0
      · obtain ⟨g, member, shared⟩ := overlapsRest (by omega)
        exact ⟨g, List.mem_cons_of_mem _ member, shared⟩
      · exact ⟨f, List.mem_cons_self, overlaps here⟩
    · simp only [List.mapM_cons, cut, cutRest]
      rfl
    · rw [List.flatten_cons, split, split, List.replicate_add]
      -- Only which pieces there are matters, so the lists are compared as multisets.
      rw [← Multiset.coe_eq_coe] at perm ⊢
      simp only [← Multiset.coe_add, perm]
      abel

/-! ## Repeats -/

theorem isSame_eq_false [BEq α] {f g : Version α} (before : f.validity.start < g.validity.start) :
    f.isSame g = false := by
  have distinct : f.validity ≠ g.validity := fun same => Int.lt_irrefl _ (same ▸ before)
  simp [Version.isSame, distinct]

theorem dropRepeatsAfter_eq_cons [BEq α] {kept : Version α} {rest : List (Version α)}
    (starts : (kept :: rest).Pairwise fun f g => f.validity.start < g.validity.start) :
    dropRepeatsAfter kept rest = kept :: rest := by
  induction rest generalizing kept with
  | nil => rfl
  | cons v rest ih =>
    have before := List.rel_of_pairwise_cons starts List.mem_cons_self
    rw [dropRepeatsAfter, isSame_eq_false before, ih starts.of_cons]
    rfl

theorem dropRepeats_eq_self [BEq α] {versions : List (Version α)}
    (starts : versions.Pairwise fun f g => f.validity.start < g.validity.start) :
    dropRepeats versions = versions := by
  cases versions with
  | nil => rfl
  | cons v rest => exact dropRepeatsAfter_eq_cons starts

theorem dropRepeatsAfter_replicate [BEq α] [ReflBEq α] {kept : Version α} {rest : List (Version α)}
    (starts : (kept :: rest).Pairwise fun f g => f.validity.start < g.validity.start)
    (copies : Nat) : dropRepeatsAfter kept (List.replicate copies kept ++ rest) = kept :: rest := by
  induction copies with
  | zero => exact dropRepeatsAfter_eq_cons starts
  | succ copies ih =>
    have same : kept.isSame kept = true := by simp [Version.isSame]
    rw [List.replicate_succ, List.cons_append, dropRepeatsAfter, if_pos same, ih]

theorem dropRepeatsAfter_append_replicate [BEq α] [ReflBEq α] {kept next : Version α}
    {before after : List (Version α)} (copies : Nat)
    (starts : (kept :: before ++ next :: after).Pairwise
      fun f g => f.validity.start < g.validity.start) :
    dropRepeatsAfter kept (before ++ (List.replicate (copies + 1) next ++ after)) =
      kept :: before ++ next :: after := by
  induction before generalizing kept with
  | nil =>
    have first := List.rel_of_pairwise_cons starts List.mem_cons_self
    rw [List.nil_append, List.replicate_succ, List.cons_append, dropRepeatsAfter,
      isSame_eq_false first, dropRepeatsAfter_replicate starts.of_cons]
    rfl
  | cons v before ih =>
    have first := List.rel_of_pairwise_cons starts List.mem_cons_self
    rw [List.cons_append, dropRepeatsAfter, isSame_eq_false first, ih starts.of_cons]
    rfl

/-- Copies of a version between earlier and later ones come down to one. -/
theorem dropRepeats_append_replicate [BEq α] [ReflBEq α] {next : Version α}
    {before after : List (Version α)} (copies : Nat)
    (starts : (before ++ next :: after).Pairwise fun f g => f.validity.start < g.validity.start) :
    dropRepeats (before ++ (List.replicate (copies + 1) next ++ after)) =
      before ++ next :: after := by
  cases before with
  | nil => exact dropRepeatsAfter_replicate starts copies
  | cons kept before => exact dropRepeatsAfter_append_replicate copies starts

theorem dropRepeatsAfter_sublist [BEq α] (kept : Version α) (rest : List (Version α)) :
    (dropRepeatsAfter kept rest).Sublist (kept :: rest) := by
  induction rest generalizing kept with
  | nil => exact .refl _
  | cons v rest ih =>
    rw [dropRepeatsAfter]
    split
    · exact (ih kept).trans ((List.sublist_cons_self v rest).cons_cons kept)
    · exact (ih v).cons_cons kept

theorem dropRepeats_sublist [BEq α] (versions : List (Version α)) :
    (dropRepeats versions).Sublist versions := by
  cases versions with
  | nil => exact .slnil
  | cons v rest => exact dropRepeatsAfter_sublist v rest

theorem pairwise_startsNoLater_mergeSort (versions : List (Version α)) :
    (versions.mergeSort Version.startsNoLater).Pairwise
      fun f g => f.validity.start ≤ g.validity.start := by
  have sorted : (versions.mergeSort Version.startsNoLater).Pairwise
      fun f g => f.startsNoLater g = true := by
    apply List.pairwise_mergeSort
    · intro u v w first second
      simp only [Version.startsNoLater, decide_eq_true_eq] at *
      exact Int.le_trans first second
    · intro u v
      simp only [Version.startsNoLater, Bool.or_eq_true, decide_eq_true_eq]
      exact Int.le_total _ _
  exact sorted.imp fun h => by simpa [Version.startsNoLater] using h

theorem eq_of_start_eq {versions : List (Version α)}
    (starts : versions.Pairwise fun f g => f.validity.start < g.validity.start) {f g : Version α}
    (memberF : f ∈ versions) (memberG : g ∈ versions)
    (same : f.validity.start = g.validity.start) : f = g := by
  by_contra distinct
  have symmetric : Std.Symm fun f g : Version α => f.validity.start ≠ g.validity.start :=
    ⟨fun _ _ => Ne.symm⟩
  have apart := starts.imp (S := fun f g => f.validity.start ≠ g.validity.start)
    fun before same => Int.lt_irrefl _ (same ▸ before)
  exact apart.forall memberF memberG distinct same

/-- The sort brings the copies of a version together, at their place among fragments of which no
two start on one day. -/
theorem mergeSort_startsNoLater_eq {versions before after : List (Version α)} {next : Version α}
    {copies : Nat}
    (starts : (before ++ next :: after).Pairwise fun f g => f.validity.start < g.validity.start)
    (perm : versions.Perm (before ++ (List.replicate copies next ++ after))) :
    versions.mergeSort Version.startsNoLater = before ++ (List.replicate copies next ++ after) := by
  have once : ∀ f ∈ before ++ (List.replicate copies next ++ after),
      f ∈ before ++ next :: after := by
    intro f member
    simp only [List.mem_append, List.mem_replicate, List.mem_cons] at member ⊢
    tauto
  have sorted : (before ++ (List.replicate copies next ++ after)).Pairwise
      fun f g => f.validity.start ≤ g.validity.start := by
    obtain ⟨startsBefore, startsAfter, across⟩ := List.pairwise_append.mp starts
    obtain ⟨nextBefore, startsAfter⟩ := List.pairwise_cons.mp startsAfter
    refine List.pairwise_append.mpr ⟨startsBefore.imp Int.le_of_lt, List.pairwise_append.mpr
      ⟨List.pairwise_replicate.mpr (.inr (Int.le_refl _)), startsAfter.imp Int.le_of_lt, ?_⟩, ?_⟩
    · intro f memberF g memberG
      obtain rfl := List.eq_of_mem_replicate memberF
      exact Int.le_of_lt (nextBefore g memberG)
    · intro f memberF g memberG
      refine Int.le_of_lt (across f memberF g ?_)
      simp only [List.mem_append, List.mem_replicate, List.mem_cons] at memberG ⊢
      tauto
  -- Two sorted lists of the same versions agree, for versions of equal starts are equal here.
  refine List.Perm.eq_of_pairwise (fun f g memberF memberG le ge => ?_)
    (pairwise_startsNoLater_mergeSort versions) sorted ((List.mergeSort_perm _ _).trans perm)
  rw [List.mem_mergeSort, perm.mem_iff] at memberF
  exact eq_of_start_eq starts (once f memberF) (once g memberG)
    (Day.eq_of_number_eq (Int.le_antisymm le ge))

/-- Before they are sorted, the pieces of a closed splice are those of the overlay, with further
copies of the version. -/
theorem exists_spliceClosed_eq [BEq α] (publicCode : String) {timeline : Timeline α}
    (covers : ∀ f ∈ timeline, f.validity.CoversSomeDay) {next : Version α}
    (nextCovers : next.validity.CoversSomeDay) :
    ∃ (collected : List (Version α)) (copies : Nat),
      (copies ≠ 0 → ∃ f ∈ timeline, f.validity.Overlaps next.validity) ∧
      timeline.spliceClosed publicCode next =
        .ok (dropRepeats (collected.mergeSort Version.startsNoLater)) ∧
      collected.Perm (timeline.filterMap (·.partBefore? next.validity) ++
        (List.replicate (copies + 1) next ++
          timeline.filterMap (·.partAfter? next.validity))) := by
  obtain ⟨pieces, copies, overlaps, mapped, perm⟩ :=
    mapM_cutByClosed_perm publicCode nextCovers covers
  have permNext : (pieces.flatten ++ [next]).Perm
      (timeline.filterMap (·.partBefore? next.validity) ++
        (List.replicate (copies + 1) next ++ timeline.filterMap (·.partAfter? next.validity))) := by
    calc
      pieces.flatten ++ [next]
      _ ~ next :: pieces.flatten := List.perm_append_singleton _ _
      _ ~ next :: (_ ++ (List.replicate copies next ++ _)) := perm.cons next
      _ ~ _ ++ (List.replicate (copies + 1) next ++ _) := List.perm_middle.symm
  have allCover : (pieces.flatten ++ [next]).filter (·.validity.CoversSomeDay) =
      pieces.flatten ++ [next] := by
    refine List.filter_eq_self.mpr fun f member =>
      decide_eq_true (coversSomeDay_of_mem_overlay covers nextCovers ?_)
    rw [permNext.mem_iff] at member
    simp only [overlay, List.mem_append, List.mem_replicate, List.mem_cons] at member ⊢
    tauto
  refine ⟨pieces.flatten ++ [next], copies, overlaps, ?_, permNext⟩
  rw [spliceClosed, mapped]
  change Except.ok (dropRepeats (List.mergeSort _ _)) = _
  rw [allCover]

/-- A closed version laid into a flat timeline. -/
theorem spliceClosed_eq_overlay [BEq α] [ReflBEq α] (publicCode : String) {timeline : Timeline α}
    (flat : timeline.IsFlat) {next : Version α} (nextCovers : next.validity.CoversSomeDay) :
    timeline.spliceClosed publicCode next = .ok (timeline.overlay next) := by
  obtain ⟨collected, copies, -, spliced, perm⟩ :=
    exists_spliceClosed_eq publicCode flat.covers nextCovers
  have starts := (flat.overlay nextCovers).starts
  rw [spliced, mergeSort_startsNoLater_eq starts perm, dropRepeats_append_replicate copies starts,
    overlay]

/-- Over a flat timeline both splices are the overlay, and neither fails. -/
theorem splice_eq_overlay [BEq α] [ReflBEq α] (publicCode : String) {timeline : Timeline α}
    (flat : timeline.IsFlat) {next : Version α} (nextCovers : next.validity.CoversSomeDay) :
    timeline.splice publicCode next = .ok (timeline.overlay next) := by
  rw [splice]
  split
  next indefinite => rw [spliceIndefinite_eq_overlay flat.covers indefinite]
  next closed => exact spliceClosed_eq_overlay publicCode flat nextCovers

/-- A version that is added to a flat timeline is laid over it, or covers no day. -/
theorem IsFlat.eq_of_add [BEq α] [ReflBEq α] {publicCode : String} {timeline extended : Timeline α}
    (flat : timeline.IsFlat) {next : Version α}
    (added : timeline.add publicCode next = .ok extended) :
    (next.validity.CoversSomeDay ∧ extended = timeline.overlay next) ∨
      (¬ next.validity.CoversSomeDay ∧ extended = timeline) := by
  rw [Timeline.add] at added
  split at added
  next covers =>
    split at added
    next => cases added
    next =>
      rw [splice_eq_overlay publicCode flat covers] at added
      exact .inl ⟨covers, (Except.ok.inj added).symm⟩
  next empty => exact .inr ⟨empty, (Except.ok.inj added).symm⟩

end Timeline

end QuayTimeline
