import QuayTimeline.Proofs.Timeline.Resolution

/-! # The check for conflicts

Before a version is spliced, the check looks for a fragment of its priority that shares a day with
it. No version so far ranks higher, so none has cut a version of that priority: the timeline still
holds those versions whole, and the check finds a conflict just when two versions clash. Only days
and priorities count for this, so owners may be compared in any way, even in one that keeps repeats
in the timeline. -/

namespace QuayTimeline.Timeline

variable {α : Type}

/-- The validities of versions or fragments, without their owners. -/
def validities (versions : List (Version α)) : List Validity :=
  versions.map (·.validity)

theorem mem_validities {versions : List (Version α)} {validity : Validity} :
    validity ∈ validities versions ↔ ∃ v ∈ versions, v.validity = validity := by
  simp [validities]

theorem mem_validities_of_mem {versions : List (Version α)} {v : Version α}
    (member : v ∈ versions) :
    v.validity ∈ validities versions :=
  List.mem_map_of_mem member

theorem mem_validities_append_singleton {versions : List (Version α)} {next : Version α}
    {validity : Validity} : validity ∈ validities (versions ++ [next]) ↔
      validity ∈ validities versions ∨ validity = next.validity := by
  simp [validities]

/-! ## Splices with repeats -/

theorem mem_validities_dropRepeatsAfter [BEq α] {kept : Version α} {rest : List (Version α)}
    {validity : Validity} : validity ∈ validities (dropRepeatsAfter kept rest) ↔
      validity ∈ validities (kept :: rest) := by
  induction rest generalizing kept with
  | nil => rfl
  | cons v rest ih =>
    rw [dropRepeatsAfter]
    split
    next same =>
      have sameValidity : kept.validity = v.validity := by
        simp only [Version.isSame, Bool.and_eq_true, decide_eq_true_eq] at same
        exact same.2
      rw [ih]
      simp [validities, sameValidity]
    next =>
      simp only [validities, List.map_cons, List.mem_cons] at ih ⊢
      rw [ih]

theorem mem_validities_dropRepeats [BEq α] {versions : List (Version α)} {validity : Validity} :
    validity ∈ validities (dropRepeats versions) ↔ validity ∈ validities versions := by
  cases versions with
  | nil => rfl
  | cons v rest => exact mem_validities_dropRepeatsAfter

/-- Over fragments that cover some day a splice does not fail, and has the validities of the
overlay. -/
theorem exists_splice_eq_ok [BEq α] (publicCode : String) {timeline : Timeline α}
    (covers : ∀ f ∈ timeline, f.validity.CoversSomeDay) {next : Version α}
    (nextCovers : next.validity.CoversSomeDay) :
    ∃ spliced, timeline.splice publicCode next = .ok spliced ∧
      ∀ validity,
        validity ∈ validities spliced ↔ validity ∈ validities (timeline.overlay next) := by
  rw [splice]
  split
  next indefinite =>
    rw [spliceIndefinite_eq_overlay covers indefinite]
    exact ⟨_, rfl, fun _ => Iff.rfl⟩
  next closed =>
    obtain ⟨collected, copies, -, spliced, perm⟩ :=
      exists_spliceClosed_eq publicCode covers nextCovers
    refine ⟨_, spliced, fun validity => ?_⟩
    have sorted := List.mergeSort_perm collected Version.startsNoLater
    rw [mem_validities_dropRepeats, validities, ((sorted.trans perm).map _).mem_iff]
    simp only [validities, overlay, List.map_append, List.map_replicate, List.map_cons,
      List.mem_append, List.mem_replicate, List.mem_cons]
    simp

/-! ## What the timeline keeps -/

/-- The fragments cover some day, and those of a priority that no version exceeds are the versions
of that priority as they are. -/
structure KeepsHighest (versions : List (Version α)) (timeline : Timeline α) : Prop where
  covers : ∀ f ∈ timeline, f.validity.CoversSomeDay
  whole : ∀ validity : Validity, (∀ v ∈ versions, v.validity.priority ≤ validity.priority) →
    (validity ∈ validities timeline ↔ validity ∈ validities versions ∧ validity.CoversSomeDay)

variable {versions : List (Version α)} {timeline extended : Timeline α} {next : Version α}

theorem KeepsHighest.nil : KeepsHighest ([] : List (Version α)) [] :=
  ⟨by simp, by simp [validities]⟩

/-- A fragment that conflicts with a version of the highest priority shows a version that clashes.
-/
theorem KeepsHighest.exists_clash (keeps : KeepsHighest versions timeline)
    (highest : ∀ v ∈ versions, v.validity.priority ≤ next.validity.priority)
    (covers : next.validity.CoversSomeDay) {f : Version α} (member : f ∈ timeline)
    (conflict : f.validity.ConflictsWith next.validity) :
    ∃ v ∈ versions, v.validity = f.validity ∧ v.Clashes next := by
  obtain ⟨priority, overlaps⟩ := conflict
  obtain ⟨mem, coversF⟩ := (keeps.whole f.validity (priority ▸ highest)).mp
    (mem_validities_of_mem member)
  obtain ⟨v, memberV, same⟩ := mem_validities.mp mem
  refine ⟨v, memberV, same, ?_⟩
  rw [Version.Clashes, same]
  exact ⟨priority, (Validity.overlaps_iff_exists_mem coversF covers).mp overlaps⟩

/-- A version that clashes with one of the highest priority is there whole, so it is found. -/
theorem KeepsHighest.exists_conflict (keeps : KeepsHighest versions timeline)
    (highest : ∀ v ∈ versions, v.validity.priority ≤ next.validity.priority) {v : Version α}
    (member : v ∈ versions) (clash : v.Clashes next) :
    ∃ f ∈ timeline, f.validity.ConflictsWith next.validity := by
  obtain ⟨priority, d, memV, memNext⟩ := clash
  have covers := Validity.coversSomeDay_of_mem memV
  obtain ⟨f, memberF, same⟩ := mem_validities.mp ((keeps.whole v.validity (priority ▸ highest)).mpr
    ⟨mem_validities_of_mem member, covers⟩)
  refine ⟨f, memberF, ?_⟩
  rw [Validity.ConflictsWith, same]
  exact ⟨priority, (Validity.overlaps_iff_exists_mem covers
    (Validity.coversSomeDay_of_mem memNext)).mpr ⟨d, memV, memNext⟩⟩

/-- A version that covers no day changes nothing. -/
theorem KeepsHighest.append_empty (keeps : KeepsHighest versions timeline)
    (empty : ¬ next.validity.CoversSomeDay) : KeepsHighest (versions ++ [next]) timeline := by
  refine ⟨keeps.covers, fun validity atLeast => ?_⟩
  rw [keeps.whole validity fun v member => atLeast v (List.mem_append_left _ member),
    mem_validities_append_singleton]
  constructor
  · intro whole
    exact ⟨.inl whole.1, whole.2⟩
  · intro ⟨mem, covers⟩
    cases mem with
    | inl mem => exact ⟨mem, covers⟩
    | inr same => exact absurd (same ▸ covers) empty

/-- Where the check finds nothing, the version cuts no fragment of the highest priority. -/
theorem KeepsHighest.isPart_iff_of_highest (keeps : KeepsHighest versions timeline)
    (highest : ∀ v ∈ versions, v.validity.priority ≤ next.validity.priority)
    (covers : next.validity.CoversSomeDay)
    (noConflict : ∀ f ∈ timeline, ¬ f.validity.ConflictsWith next.validity) {f part : Version α}
    (member : f ∈ timeline) (atLeast : next.validity.priority ≤ f.validity.priority) :
    (f.partBefore? next.validity = some part ∨ f.partAfter? next.validity = some part) ↔
      f = part := by
  -- Such a fragment is a version, so it ranks no higher than the next one either.
  have above : ∀ v ∈ versions, v.validity.priority ≤ f.validity.priority := fun v memberV =>
    Int.le_trans (highest v memberV) atLeast
  obtain ⟨v, memberV, same⟩ := mem_validities.mp
    ((keeps.whole f.validity above).mp (mem_validities_of_mem member)).1
  have priority := Priority.eq_of_le_of_le (same ▸ highest v memberV) atLeast
  apply Version.isPart_iff_of_not_overlaps (keeps.covers f member) covers
  intro overlaps
  exact noConflict f member ⟨priority, overlaps⟩

theorem KeepsHighest.mem_validities_overlay (keeps : KeepsHighest versions timeline)
    (highest : ∀ v ∈ versions, v.validity.priority ≤ next.validity.priority)
    (covers : next.validity.CoversSomeDay)
    (noConflict : ∀ f ∈ timeline, ¬ f.validity.ConflictsWith next.validity) {validity : Validity}
    (atLeast : next.validity.priority ≤ validity.priority) :
    validity ∈ validities (timeline.overlay next) ↔
      validity = next.validity ∨ validity ∈ validities timeline := by
  constructor
  · intro mem
    obtain ⟨part, memberPart, rfl⟩ := mem_validities.mp mem
    rcases mem_overlay.mp memberPart with rfl | ⟨f, member, isPart⟩
    · exact .inl rfl
    · rw [(Version.isPartOf_of_part (keeps.covers f member) isPart).priority] at atLeast
      have same : f = part :=
        (keeps.isPart_iff_of_highest highest covers noConflict member atLeast).mp isPart
      exact .inr (mem_validities_of_mem (same ▸ member))
  · intro mem
    apply mem_validities.mpr
    cases mem with
    | inl same => exact ⟨next, mem_overlay.mpr (.inl rfl), same.symm⟩
    | inr mem =>
      obtain ⟨f, member, rfl⟩ := mem_validities.mp mem
      have isPart := (keeps.isPart_iff_of_highest highest covers noConflict member atLeast).mpr rfl
      exact ⟨f, mem_overlay.mpr (.inr ⟨f, member, isPart⟩), rfl⟩

/-- The overlay of a version that conflicts with no fragment keeps what is of its priority. -/
theorem KeepsHighest.overlay (keeps : KeepsHighest versions timeline)
    (highest : ∀ v ∈ versions, v.validity.priority ≤ next.validity.priority)
    (covers : next.validity.CoversSomeDay)
    (noConflict : ∀ f ∈ timeline, ¬ f.validity.ConflictsWith next.validity) :
    KeepsHighest (versions ++ [next]) (timeline.overlay next) := by
  refine ⟨fun f => coversSomeDay_of_mem_overlay keeps.covers covers, fun validity atLeast => ?_⟩
  rw [keeps.mem_validities_overlay highest covers noConflict (atLeast next (by simp)),
    keeps.whole validity fun v member => atLeast v (List.mem_append_left _ member),
    mem_validities_append_singleton]
  constructor
  · intro mem
    cases mem with
    | inl same => exact ⟨.inr same, same ▸ covers⟩
    | inr whole => exact ⟨.inl whole.1, whole.2⟩
  · intro ⟨mem, coversValidity⟩
    cases mem with
    | inl mem => exact .inr ⟨mem, coversValidity⟩
    | inr same => exact .inl same

theorem KeepsHighest.of_mem_validities_iff (keeps : KeepsHighest versions timeline)
    (same : ∀ validity, validity ∈ validities extended ↔ validity ∈ validities timeline) :
    KeepsHighest versions extended where
  covers f member := by
    obtain ⟨g, memberG, sameG⟩ := mem_validities.mp ((same f.validity).mp
      (mem_validities_of_mem member))
    exact sameG ▸ keeps.covers g memberG
  whole validity atLeast := (same validity).trans (keeps.whole validity atLeast)

/-! ## The fold -/

/-- A symmetric relation holds along a list just when it holds of the items at any two positions. -/
theorem pairwise_iff_getElem? {β : Type} {R : β → β → Prop} (symm : ∀ {a b}, R a b → R b a)
    {items : List β} : items.Pairwise R ↔ ∀ (i j : Nat) (a b : β), i ≠ j → items[i]? = some a →
      items[j]? = some b → R a b := by
  rw [List.pairwise_iff_getElem]
  constructor
  · intro related i j a b distinct atI atJ
    obtain ⟨boundI, rfl⟩ := List.getElem?_eq_some_iff.mp atI
    obtain ⟨boundJ, rfl⟩ := List.getElem?_eq_some_iff.mp atJ
    cases Nat.lt_or_gt_of_ne distinct with
    | inl before => exact related i j boundI boundJ before
    | inr after => exact symm (related j i boundJ boundI after)
  · intro related i j boundI boundJ before
    exact related i j _ _ (Nat.ne_of_lt before) (List.getElem?_eq_getElem boundI)
      (List.getElem?_eq_getElem boundJ)

theorem clashFree_iff_getElem? {versions : List (Version α)} :
    ClashFree versions ↔ ∀ (i j : Nat) (v w : Version α), i ≠ j → versions[i]? = some v →
      versions[j]? = some w → ¬ v.Clashes w :=
  pairwise_iff_getElem? fun clashFree clash => clashFree clash.symm

theorem clashFree_append_singleton :
    ClashFree (versions ++ [next]) ↔ ClashFree versions ∧ ∀ v ∈ versions, ¬ v.Clashes next := by
  simp [ClashFree, List.pairwise_append]

/-- In the sorted list no version comes after one of higher priority, or of the same priority and a
later start. -/
theorem pairwise_precedes_mergeSort (versions : List (Version α)) :
    (versions.mergeSort Version.precedes).Pairwise fun v w => v.precedes w = true := by
  apply List.pairwise_mergeSort
  · intro u v w first second
    simp only [Version.precedes, decide_eq_true_eq, Priority.lt_def, Priority.ext_iff,
      Day.le_def] at *
    omega
  · intro u v
    simp only [Version.precedes, Bool.or_eq_true, decide_eq_true_eq, Priority.lt_def,
      Priority.ext_iff, Day.le_def]
    omega

theorem pairwise_priority_mergeSort (versions : List (Version α)) :
    (versions.mergeSort Version.precedes).Pairwise
      fun v w => v.validity.priority ≤ w.validity.priority := by
  apply (pairwise_precedes_mergeSort versions).imp
  intro v w precedes
  simp only [Version.precedes, decide_eq_true_eq, Priority.lt_def, Priority.ext_iff] at precedes
  rw [Priority.le_def]
  omega

variable [BEq α]

/-- One step: either no version so far clashes with the next one, or one does, and the error shows
the two as they are. -/
theorem add_cases (publicCode : String) (keeps : KeepsHighest versions timeline)
    (highest : ∀ v ∈ versions, v.validity.priority ≤ next.validity.priority) :
    (∃ extended, add publicCode timeline next = .ok extended ∧
        KeepsHighest (versions ++ [next]) extended ∧ ∀ v ∈ versions, ¬ v.Clashes next) ∨
      ∃ v ∈ versions, v.Clashes next ∧ add publicCode timeline next =
        .error (.samePriorityOverlap publicCode v.validity next.validity) := by
  rw [add]
  split
  next covers =>
    split
    next existing found =>
      have conflict : existing.validity.ConflictsWith next.validity := by
        simpa using List.find?_some found
      obtain ⟨v, member, same, clash⟩ :=
        keeps.exists_clash highest covers (List.mem_of_find?_eq_some found) conflict
      rw [← same]
      exact .inr ⟨v, member, clash, rfl⟩
    next nothing =>
      have noConflict : ∀ f ∈ timeline, ¬ f.validity.ConflictsWith next.validity := by
        simpa using nothing
      obtain ⟨spliced, isSpliced, same⟩ := exists_splice_eq_ok publicCode keeps.covers covers
      refine .inl ⟨spliced, isSpliced, ?_, fun v member clash => ?_⟩
      · exact (keeps.overlay highest covers noConflict).of_mem_validities_iff same
      · obtain ⟨f, memberF, conflict⟩ := keeps.exists_conflict highest member clash
        exact noConflict f memberF conflict
  next empty =>
    refine .inl ⟨timeline, rfl, keeps.append_empty empty, fun v _ clash => ?_⟩
    obtain ⟨-, d, -, memNext⟩ := clash
    exact empty (Validity.coversSomeDay_of_mem memNext)

theorem foldlM_add_cases (publicCode : String) {rest : List (Version α)}
    (keeps : KeepsHighest versions timeline) (clashFree : ClashFree versions)
    (sorted : (versions ++ rest).Pairwise fun v w => v.validity.priority ≤ w.validity.priority) :
    (∃ result, rest.foldlM (add publicCode) timeline = .ok result ∧ ClashFree (versions ++ rest)) ∨
      ∃ taken next later v, versions ++ rest = taken ++ next :: later ∧ ClashFree taken ∧
        v ∈ taken ∧ v.Clashes next ∧ rest.foldlM (add publicCode) timeline =
          .error (.samePriorityOverlap publicCode v.validity next.validity) := by
  -- The versions taken so far grow by one in each step, and stay sorted with those to come.
  induction rest generalizing versions timeline with
  | nil => exact .inl ⟨timeline, rfl, by simpa using clashFree⟩
  | cons next rest ih =>
    have highest : ∀ v ∈ versions, v.validity.priority ≤ next.validity.priority := fun v member =>
      (List.pairwise_append.mp sorted).2.2 v member next List.mem_cons_self
    rw [List.foldlM_cons]
    rcases add_cases publicCode keeps highest with
      ⟨extended, added, keepsNext, clashFreeNext⟩ | ⟨v, member, clash, failed⟩
    · rw [added]
      rw [List.append_cons versions next rest] at sorted ⊢
      exact ih keepsNext (clashFree_append_singleton.mpr ⟨clashFree, clashFreeNext⟩) sorted
    · rw [failed]
      exact .inr ⟨versions, next, rest, v, rfl, clashFree, member, clash, rfl⟩

/-- When flattening fails, a version clashes with one that comes before it by priority and start,
and no two versions before it clash. The error shows both versions as they are. -/
theorem flatten_eq_error {publicCode : String} {error : FlatteningError}
    (failed : flatten publicCode versions = .error error) :
    ∃ taken next later v, versions.mergeSort Version.precedes = taken ++ next :: later ∧
      ClashFree taken ∧ v ∈ taken ∧ v.Clashes next ∧
      error = .samePriorityOverlap publicCode v.validity next.validity := by
  rcases foldlM_add_cases publicCode .nil .nil (pairwise_priority_mergeSort versions) with
    ⟨timeline, folded, -⟩ | ⟨taken, next, later, v, split, clashFree, member, clash, folded⟩
  · rw [flatten, folded] at failed
    cases failed
  · rw [flatten, folded] at failed
    cases failed
    exact ⟨taken, next, later, v, split, clashFree, member, clash, rfl⟩

/-- Flattening succeeds just on versions of which no two clash. -/
theorem exists_flatten_iff_clashFree {publicCode : String} :
    (∃ timeline, flatten publicCode versions = .ok timeline) ↔ ClashFree versions := by
  have perm := List.mergeSort_perm versions Version.precedes
  rcases foldlM_add_cases publicCode .nil .nil (pairwise_priority_mergeSort versions) with
    ⟨timeline, folded, clashFree⟩ | ⟨taken, next, later, v, split, -, member, clash, failed⟩
  · exact ⟨fun _ => (ClashFree.perm perm).mp clashFree, fun _ => ⟨timeline, folded⟩⟩
  · constructor
    · intro ⟨timeline, flattened⟩
      rw [flatten, failed] at flattened
      cases flattened
    · intro clashFree
      have clashFreeSorted := (ClashFree.perm perm).mpr clashFree
      rw [← List.nil_append (versions.mergeSort _), split] at clashFreeSorted
      exact absurd clash
        ((List.pairwise_append.mp clashFreeSorted).2.2 v member next List.mem_cons_self)

end QuayTimeline.Timeline
