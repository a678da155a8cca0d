import QuayTimeline.Proofs.Timeline.Flatten

/-! # The first conflict

When flattening fails, the error shows two versions that conflict, at the lowest priority at which
any two do, and with the earliest start from which a version of that priority shares a day with one
that starts no later. Which versions are shown may depend on their order, where several start on one
day; the priority and the day do not. -/

namespace QuayTimeline

variable {α : Type}

/-- The start of the later one of two ranges. -/
def Validity.laterStart (v w : Validity) : Day :=
  if v.start ≤ w.start then w.start else v.start

theorem Validity.laterStart_of_le {v w : Validity} (le : v.start ≤ w.start) :
    v.laterStart w = w.start :=
  if_pos le

theorem Validity.le_laterStart {v w : Validity} {d : Day} (le : d ≤ v.start ∨ d ≤ w.start) :
    d ≤ v.laterStart w := by
  simp only [laterStart, Day.le_def] at le ⊢
  split <;> omega

theorem Version.precedes_iff {v w : Version α} : v.precedes w = true ↔
    v.validity.priority < w.validity.priority ∨
      (v.validity.priority = w.validity.priority ∧ v.validity.start ≤ w.validity.start) := by
  simp [precedes]

namespace Timeline

/-! ## Conflicts -/

/-- Two items of a list, not both the same occurrence of one item. -/
def AreApart (versions : List (Version α)) (v w : Version α) : Prop :=
  ∃ i j : Nat, i ≠ j ∧ versions[i]? = some v ∧ versions[j]? = some w

/-- Two versions at distinct positions that cover some day each and share a day at one priority. -/
structure IsConflict (versions : List (Version α)) (v w : Version α) : Prop where
  apart : AreApart versions v w
  covers : v.validity.CoversSomeDay
  coversOther : w.validity.CoversSomeDay
  priority : v.validity.priority = w.validity.priority
  shared : ∃ d, d ∈ v.validity ∧ d ∈ w.validity

/-- A conflict of the lowest priority, and at that priority with the least later start. -/
structure IsFirstConflict (versions : List (Version α)) (existing incoming : Version α) : Prop
    extends IsConflict versions existing incoming where
  start : existing.validity.start ≤ incoming.validity.start
  lowest : ∀ v w, IsConflict versions v w → existing.validity.priority ≤ v.validity.priority
  least : ∀ v w, IsConflict versions v w → v.validity.priority = existing.validity.priority →
    incoming.validity.start ≤ v.validity.laterStart w.validity

variable {versions others : List (Version α)} {v w existing incoming : Version α}

theorem AreApart.perm (perm : versions.Perm others) (apart : AreApart versions v w) :
    AreApart others v w := by
  have symm : ∀ {a b : Version α}, ¬ ((a = v ∧ b = w) ∨ (a = w ∧ b = v)) →
      ¬ ((b = v ∧ a = w) ∨ (b = w ∧ a = v)) := by tauto
  by_contra none
  have noPair : others.Pairwise fun a b => ¬ ((a = v ∧ b = w) ∨ (a = w ∧ b = v)) := by
    apply (pairwise_iff_getElem? symm).mpr
    intro i j a b distinct atI atJ pair
    cases pair with
    | inl same => exact none ⟨i, j, distinct, same.1 ▸ atI, same.2 ▸ atJ⟩
    | inr same => exact none ⟨j, i, distinct.symm, same.2 ▸ atJ, same.1 ▸ atI⟩
  obtain ⟨i, j, distinct, atI, atJ⟩ := apart
  have noPairBefore := (perm.pairwise_iff symm).mpr noPair
  exact (pairwise_iff_getElem? symm).mp noPairBefore i j v w distinct atI atJ (.inl ⟨rfl, rfl⟩)

theorem areApart_append_cons {later : List (Version α)} (member : v ∈ versions) :
    AreApart (versions ++ w :: later) v w := by
  obtain ⟨i, atI⟩ := List.mem_iff_getElem?.mp member
  obtain ⟨bound, -⟩ := List.getElem?_eq_some_iff.mp atI
  refine ⟨i, versions.length, Nat.ne_of_lt bound, ?_, by simp⟩
  rw [List.getElem?_append_left bound, atI]

theorem IsConflict.perm (perm : versions.Perm others) (conflict : IsConflict versions v w) :
    IsConflict others v w :=
  { conflict with apart := conflict.apart.perm perm }

/-! ## The first one -/

/-- Of two versions that conflict, one comes no earlier in the sorted list than the first version
that clashes with one before it. -/
theorem IsConflict.precedes_of_split {taken later : List (Version α)}
    (conflict : IsConflict versions v w)
    (split : versions.mergeSort Version.precedes = taken ++ incoming :: later)
    (clashFree : ClashFree taken) : incoming.precedes v = true ∨ incoming.precedes w = true := by
  have sorted := pairwise_precedes_mergeSort versions
  rw [split] at sorted
  have laterPrecedes := (List.pairwise_cons.mp (List.pairwise_append.mp sorted).2.1).1
  have precedes : ∀ a ∈ incoming :: later, incoming.precedes a = true := by
    intro a member
    cases List.mem_cons.mp member with
    | inl same => exact same ▸ Version.precedes_iff.mpr (.inr ⟨rfl, Int.le_refl _⟩)
    | inr member => exact laterPrecedes a member
  have symm : ∀ {a b : Version α},
      (a.Clashes b → incoming.precedes a = true ∨ incoming.precedes b = true) →
        b.Clashes a → incoming.precedes b = true ∨ incoming.precedes a = true :=
    fun related clash => (related clash.symm).symm
  have related : (versions.mergeSort Version.precedes).Pairwise fun a b =>
      a.Clashes b → incoming.precedes a = true ∨ incoming.precedes b = true := by
    rw [split]
    refine List.pairwise_append.mpr ⟨clashFree.imp fun apart clash => absurd clash apart, ?_, ?_⟩
    · exact List.pairwise_of_forall_mem_list fun a memberA _ _ _ => .inl (precedes a memberA)
    · exact fun _ _ b memberB _ => .inr (precedes b memberB)
  obtain ⟨i, j, distinct, atI, atJ⟩ := conflict.apart
  exact (pairwise_iff_getElem? symm).mp
    (((List.mergeSort_perm versions _).pairwise_iff symm).mp related) i j v w distinct atI atJ
    ⟨conflict.priority, conflict.shared⟩

theorem isFirstConflict_of_split {taken later : List (Version α)}
    (split : versions.mergeSort Version.precedes = taken ++ incoming :: later)
    (clashFree : ClashFree taken) (member : existing ∈ taken) (clash : existing.Clashes incoming) :
    IsFirstConflict versions existing incoming := by
  have sorted := pairwise_precedes_mergeSort versions
  rw [split] at sorted
  have precedes := (List.pairwise_append.mp sorted).2.2 existing member incoming List.mem_cons_self
  obtain ⟨priority, d, mem, memIncoming⟩ := clash
  have apart : AreApart versions existing incoming :=
    .perm (split ▸ List.mergeSort_perm versions _) (areApart_append_cons member)
  refine ⟨⟨apart, Validity.coversSomeDay_of_mem mem, Validity.coversSomeDay_of_mem memIncoming,
    priority, d, mem, memIncoming⟩, ?_, fun v w conflict => ?_, fun v w conflict same => ?_⟩
  · simp only [Version.precedes_iff, Priority.lt_def, priority] at precedes
    exact (precedes.resolve_left (Int.lt_irrefl _)).2
  · have either := conflict.precedes_of_split split clashFree
    simp only [Version.precedes_iff, ← conflict.priority, ← priority, Priority.lt_def,
      Priority.ext_iff] at either
    rw [Priority.le_def]
    omega
  · apply Validity.le_laterStart
    have either := conflict.precedes_of_split split clashFree
    simp only [Version.precedes_iff, ← conflict.priority, ← priority, same, Priority.lt_def,
      Int.lt_irrefl, true_and, false_or] at either
    exact either

/-- First conflicts are of one priority, and start on one day. -/
theorem IsFirstConflict.unique (first : IsFirstConflict versions existing incoming)
    (second : IsFirstConflict versions v w) :
    v.validity.priority = existing.validity.priority ∧
      w.validity.start = incoming.validity.start := by
  have priority : v.validity.priority = existing.validity.priority :=
    Priority.eq_of_le_of_le (second.lowest _ _ first.toIsConflict)
      (first.lowest _ _ second.toIsConflict)
  have atMost := first.least _ _ second.toIsConflict priority
  have atLeast := second.least _ _ first.toIsConflict priority.symm
  rw [Validity.laterStart_of_le second.start] at atMost
  rw [Validity.laterStart_of_le first.start] at atLeast
  exact ⟨priority, Day.eq_of_number_eq (Int.le_antisymm atLeast atMost)⟩

theorem IsFirstConflict.perm (perm : versions.Perm others)
    (first : IsFirstConflict versions existing incoming) :
    IsFirstConflict others existing incoming :=
  { first with
    toIsConflict := first.toIsConflict.perm perm
    lowest := fun v w conflict => first.lowest v w (conflict.perm perm.symm)
    least := fun v w conflict => first.least v w (conflict.perm perm.symm) }

theorem exists_isFirstConflict [BEq α] {publicCode : String} {error : FlatteningError}
    (failed : flatten publicCode versions = .error error) :
    ∃ existing incoming, IsFirstConflict versions existing incoming ∧
      error = .samePriorityOverlap publicCode existing.validity incoming.validity := by
  obtain ⟨taken, incoming, later, existing, split, clashFree, member, clash, same⟩ :=
    flatten_eq_error failed
  exact ⟨existing, incoming, isFirstConflict_of_split split clashFree member clash, same⟩

/-- When flattening fails, the error shows the validities of two versions that conflict first, as
they are. The same versions in another order fail too, with an error that shows the same priority
and the same start of the incoming version. -/
theorem flatten_names_first_conflict [BEq α] {publicCode : String} {error : FlatteningError}
    (failed : flatten publicCode versions = .error error) :
    ∃ existing incoming, IsFirstConflict versions existing incoming ∧
      error = .samePriorityOverlap publicCode existing.validity incoming.validity ∧
      ∀ others : List (Version α), others.Perm versions →
        ∃ v w, flatten publicCode others = .error (.samePriorityOverlap publicCode v w) ∧
          v.priority = existing.validity.priority ∧ w.priority = incoming.validity.priority ∧
          w.start = incoming.validity.start := by
  obtain ⟨existing, incoming, first, same⟩ := exists_isFirstConflict failed
  refine ⟨existing, incoming, first, same, fun others perm => ?_⟩
  cases reordered : flatten publicCode others with
  | ok timeline =>
    have clashFree := (ClashFree.perm perm).mp (exists_flatten_iff_clashFree.mp ⟨_, reordered⟩)
    obtain ⟨flattened, succeeded⟩ := exists_flatten_iff_clashFree.mpr clashFree
    rw [failed] at succeeded
    cases succeeded
  | error other =>
    obtain ⟨v, w, firstOther, rfl⟩ := exists_isFirstConflict reordered
    obtain ⟨priority, start⟩ := first.unique (firstOther.perm perm)
    refine ⟨v.validity, w.validity, rfl, priority, ?_, start⟩
    rw [← firstOther.priority, priority, first.priority]

/-- Versions that conflict at two priorities. At the lower one, two conflict with the first, and one
ends before it starts. -/
def crowdedVersions : List (Version String) :=
  [versionOn "draft" 30 1 9, versionOn "inverted" 20 2 1, versionOn "autumn" 20 6 9,
    versionOn "year" 20 1 7, versionOn "spring" 20 3 4, versionOn "copy" 30 1 9].filterMap id

/-- The error is about the lower priority and the start of spring, in the opposite order as well. -/
theorem flatten_names_first_conflict_crowdedVersions :
    ∃ existing incoming, flatten "H1" crowdedVersions =
        .error (.samePriorityOverlap "H1" existing.validity incoming.validity) ∧
      IsFirstConflict crowdedVersions existing incoming ∧
      incoming.validity.priority.value = 20 ∧ incoming.validity.start.number = 3 ∧
      ∃ v w, flatten "H1" crowdedVersions.reverse = .error (.samePriorityOverlap "H1" v w) ∧
        w.priority = incoming.validity.priority ∧ w.start = incoming.validity.start := by
  have failed : ∃ v w, flatten "H1" crowdedVersions = .error (.samePriorityOverlap "H1" v w) ∧
      w.priority.value = 20 ∧ w.start.number = 3 := ⟨_, _, by cbv, rfl, rfl⟩
  obtain ⟨v, w, failed, priority, start⟩ := failed
  obtain ⟨existing, incoming, first, same, inAnyOrder⟩ := flatten_names_first_conflict failed
  cases same
  obtain ⟨v, w, reversed, -, samePriority, sameStart⟩ :=
    inAnyOrder crowdedVersions.reverse (List.reverse_perm _)
  exact ⟨existing, incoming, failed, first, priority, start,
    v, w, reversed, samePriority, sameStart⟩

end Timeline

end QuayTimeline
