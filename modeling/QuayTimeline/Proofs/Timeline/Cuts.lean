import QuayTimeline.Timeline

/-! # Cutting ranges of days

What the comparisons and cuts of validities say about days. Splicing only cuts where two ranges
share a day, and there a cut leaves just the days on one side. Further away a cut adds days to its
range. -/

namespace QuayTimeline

namespace Day

theorem eq_of_number_eq {a b : Day} (same : a.number = b.number) : a = b :=
  Day.ext same

/-- Between two days every number is that of a day. -/
theorem exists_of_number_between (low high : Day) {n : Int} (above : low.number ≤ n)
    (below : n ≤ high.number) : ∃ d : Day, d.number = n :=
  ⟨⟨n, Int.le_trans low.firstDayNumber_le above, Int.le_trans below high.le_lastDayNumber⟩, rfl⟩

theorem pred?_eq_some_iff {d before : Day} : d.pred? = some before ↔ before.number = d.number - 1 :=
  ofNumber?_eq_some_iff

theorem succ?_eq_some_iff {d after : Day} : d.succ? = some after ↔ after.number = d.number + 1 :=
  ofNumber?_eq_some_iff

theorem succ?_last : Day.last.succ? = none := by decide

end Day

namespace Validity

theorem mem_start {v : Validity} (covers : v.CoversSomeDay) : v.start ∈ v :=
  ⟨Int.le_refl _, covers⟩

theorem mem_last {v : Validity} (covers : v.CoversSomeDay) : v.last ∈ v :=
  ⟨covers, Int.le_refl _⟩

theorem coversSomeDay_of_mem {v : Validity} {d : Day} (mem : d ∈ v) : v.CoversSomeDay :=
  Int.le_trans mem.1 mem.2

/-- Ranges that cover some day overlap just when they share one. -/
theorem overlaps_iff_exists_mem {v w : Validity} (coversV : v.CoversSomeDay)
    (coversW : w.CoversSomeDay) : v.Overlaps w ↔ ∃ d, d ∈ v ∧ d ∈ w := by
  constructor
  -- The later of the two starts is shared.
  · intro overlaps
    by_cases later : v.start ≤ w.start
    · exact ⟨w.start, ⟨later, overlaps.2⟩, mem_start coversW⟩
    · exact ⟨v.start, mem_start coversV, Int.le_of_not_le later, overlaps.1⟩
  · rintro ⟨d, memV, memW⟩
    exact ⟨Int.le_trans memV.1 memW.2, Int.le_trans memW.1 memV.2⟩

theorem ifCoversSomeDay?_eq_some_iff {v w : Validity} :
    v.ifCoversSomeDay? = some w ↔ v.CoversSomeDay ∧ v = w := by
  simp only [ifCoversSomeDay?]
  split <;> simp_all

/-- The cut before a day keeps start and priority, and ends the day before. -/
theorem endingBefore?_eq_some_iff {v w : Validity} {d : Day} :
    v.endingBefore? d = some w ↔ w.start = v.start ∧ w.priority = v.priority ∧
      w.last.number = d.number - 1 ∧ v.start < d := by
  simp only [endingBefore?, Option.bind_eq_bind, Option.bind_eq_some_iff, Day.pred?_eq_some_iff,
    ifCoversSomeDay?_eq_some_iff]
  constructor
  · rintro ⟨last, isPred, covers, rfl⟩
    simp only [CoversSomeDay, Day.le_def] at covers
    exact ⟨rfl, rfl, isPred, Day.lt_def.mpr (by omega)⟩
  · rintro ⟨start, priority, last, startsBefore⟩
    rw [Day.lt_def] at startsBefore
    refine ⟨w.last, last, ?_, ?_⟩
    · simp only [CoversSomeDay, Day.le_def]
      omega
    · exact Validity.ext start.symm rfl priority.symm

/-- The cut after a day keeps last day and priority, and starts the day after. -/
theorem startingAfter?_eq_some_iff {v w : Validity} {d : Day} :
    v.startingAfter? d = some w ↔ w.last = v.last ∧ w.priority = v.priority ∧
      w.start.number = d.number + 1 ∧ d < v.last := by
  simp only [startingAfter?, Option.bind_eq_bind, Option.bind_eq_some_iff, Day.succ?_eq_some_iff,
    ifCoversSomeDay?_eq_some_iff]
  constructor
  · rintro ⟨start, isSucc, covers, rfl⟩
    simp only [CoversSomeDay, Day.le_def] at covers
    exact ⟨rfl, rfl, isSucc, Day.lt_def.mpr (by omega)⟩
  · rintro ⟨last, priority, start, endsAfter⟩
    rw [Day.lt_def] at endsAfter
    refine ⟨w.start, start, ?_, ?_⟩
    · simp only [CoversSomeDay, Day.le_def]
      omega
    · exact Validity.ext rfl last.symm priority.symm

theorem startingAfter?_last (v : Validity) : v.startingAfter? Day.last = none := by
  simp [startingAfter?, Day.succ?_last]

/-! ## The days of a cut -/

theorem endingBefore?_eq_none_iff {v : Validity} (covers : v.CoversSomeDay) {d : Day} :
    v.endingBefore? d = none ↔ ∀ e ∈ v, ¬ e < d := by
  constructor
  · intro nothing e mem before
    simp only [mem_def, Day.le_def, Day.lt_def] at mem before
    obtain ⟨last, number⟩ := Day.exists_of_number_between e d (n := d.number - 1)
      (by omega) (by omega)
    have cut : v.endingBefore? d = some ⟨v.start, last, v.priority⟩ :=
      endingBefore?_eq_some_iff.mpr ⟨rfl, rfl, number, Day.lt_def.mpr (by omega)⟩
    simp [nothing] at cut
  · intro none
    cases cut : v.endingBefore? d with
    | none => rfl
    | some w => exact absurd (endingBefore?_eq_some_iff.mp cut).2.2.2 (none _ (mem_start covers))

theorem startingAfter?_eq_none_iff {v : Validity} (covers : v.CoversSomeDay) {d : Day} :
    v.startingAfter? d = none ↔ ∀ e ∈ v, ¬ d < e := by
  constructor
  · intro nothing e mem after
    simp only [mem_def, Day.le_def, Day.lt_def] at mem after
    obtain ⟨start, number⟩ := Day.exists_of_number_between d e (n := d.number + 1)
      (by omega) (by omega)
    have cut : v.startingAfter? d = some ⟨start, v.last, v.priority⟩ :=
      startingAfter?_eq_some_iff.mpr ⟨rfl, rfl, number, Day.lt_def.mpr (by omega)⟩
    simp [nothing] at cut
  · intro none
    cases cut : v.startingAfter? d with
    | none => rfl
    | some w => exact absurd (startingAfter?_eq_some_iff.mp cut).2.2.2 (none _ (mem_last covers))

theorem mem_of_endingBefore? {v w : Validity} {d e : Day} (cut : v.endingBefore? d = some w) :
    e ∈ w ↔ v.start ≤ e ∧ e < d := by
  obtain ⟨start, -, last, -⟩ := endingBefore?_eq_some_iff.mp cut
  simp only [mem_def, Day.le_def, Day.lt_def, start, last]
  omega

theorem mem_of_startingAfter? {v w : Validity} {d e : Day} (cut : v.startingAfter? d = some w) :
    e ∈ w ↔ d < e ∧ e ≤ v.last := by
  obtain ⟨last, -, start, -⟩ := startingAfter?_eq_some_iff.mp cut
  simp only [mem_def, Day.le_def, Day.lt_def, start, last]
  omega

/-- Moving the last day to before a given one adds no day, just when the given day comes no later
than the one after the range. -/
theorem endingBefore?_adds_no_day_iff {v w : Validity} (covers : v.CoversSomeDay) {d : Day}
    (cut : v.endingBefore? d = some w) :
    (∀ e, e ∈ w ↔ e ∈ v ∧ e < d) ↔ d.number ≤ v.last.number + 1 := by
  simp only [mem_of_endingBefore? cut, mem_def, Day.le_def, Day.lt_def, CoversSomeDay] at covers ⊢
  constructor
  · intro same
    apply Int.not_lt.mp
    intro later
    -- The day before the given one is in the cut, but after the range.
    obtain ⟨e, number⟩ := Day.exists_of_number_between v.last d (n := d.number - 1)
      (by omega) (by omega)
    have := same e
    omega
  · intro near e
    omega

theorem startingAfter?_adds_no_day_iff {v w : Validity} (covers : v.CoversSomeDay) {d : Day}
    (cut : v.startingAfter? d = some w) :
    (∀ e, e ∈ w ↔ e ∈ v ∧ d < e) ↔ v.start.number ≤ d.number + 1 := by
  simp only [mem_of_startingAfter? cut, mem_def, Day.le_def, Day.lt_def, CoversSomeDay] at covers ⊢
  constructor
  · intro same
    apply Int.not_lt.mp
    intro earlier
    obtain ⟨e, number⟩ := Day.exists_of_number_between d v.start (n := d.number + 1)
      (by omega) (by omega)
    have := same e
    omega
  · intro near e
    omega

/-- A cut leaves nothing just when the range has no day on that side. Else it keeps the priority,
and moves one end of the range to the given day without regard to where that end was: the cut covers
all days between the other end and the given day. These are the days of the range on that side just
when the given day is in the range or right beside it, or on the other side; a cut at a day further
away covers days that the range does not. -/
theorem cuts_by_day {v : Validity} (covers : v.CoversSomeDay) (d : Day) :
    ((v.endingBefore? d = none ↔ ∀ e ∈ v, ¬ e < d) ∧
      ∀ w, v.endingBefore? d = some w → w.priority = v.priority ∧
        (∀ e, e ∈ w ↔ v.start ≤ e ∧ e < d) ∧
        ((∀ e, e ∈ w ↔ e ∈ v ∧ e < d) ↔ d.number ≤ v.last.number + 1)) ∧
    ((v.startingAfter? d = none ↔ ∀ e ∈ v, ¬ d < e) ∧
      ∀ w, v.startingAfter? d = some w → w.priority = v.priority ∧
        (∀ e, e ∈ w ↔ d < e ∧ e ≤ v.last) ∧
        ((∀ e, e ∈ w ↔ e ∈ v ∧ d < e) ↔ v.start.number ≤ d.number + 1)) := by
  constructor
  · apply And.intro (endingBefore?_eq_none_iff covers)
    intro w cut
    obtain ⟨-, priority, -, -⟩ := endingBefore?_eq_some_iff.mp cut
    exact ⟨priority, fun _ => mem_of_endingBefore? cut, endingBefore?_adds_no_day_iff covers cut⟩
  · apply And.intro (startingAfter?_eq_none_iff covers)
    intro w cut
    obtain ⟨-, priority, -, -⟩ := startingAfter?_eq_some_iff.mp cut
    exact ⟨priority, fun _ => mem_of_startingAfter? cut, startingAfter?_adds_no_day_iff covers cut⟩

/-- January 2024. -/
def january : Validity :=
  ⟨(Day.ofCivil? ⟨2024, 1, 1⟩).get rfl, (Day.ofCivil? ⟨2024, 1, 31⟩).get rfl,
    (Priority.ofInt? 15).get rfl⟩

/-- Cut before the fifteenth, January keeps its first fourteen days. -/
theorem cuts_by_day_january : january.CoversSomeDay ∧
    ∃ d w, Day.ofCivil? ⟨2024, 1, 15⟩ = some d ∧ january.endingBefore? d = some w ∧
      ∀ e, e ∈ w ↔ e ∈ january ∧ e < d := by
  have covers : january.CoversSomeDay := by decide
  obtain ⟨-, cut⟩ := (cuts_by_day covers ((Day.ofCivil? ⟨2024, 1, 15⟩).get rfl)).1
  exact ⟨covers, _, _, rfl, rfl, (cut _ rfl).2.2.mpr (by decide)⟩

/-- Cut before the first of March, January lasts through February; cut after the last of November,
it starts with December. -/
theorem cuts_add_days_january :
    (∃ d w e, Day.ofCivil? ⟨2024, 3, 1⟩ = some d ∧ january.endingBefore? d = some w ∧
      Day.ofCivil? ⟨2024, 2, 29⟩ = some e ∧ e ∈ w ∧ e ∉ january) ∧
    ∃ d w e, Day.ofCivil? ⟨2023, 11, 30⟩ = some d ∧ january.startingAfter? d = some w ∧
      Day.ofCivil? ⟨2023, 12, 1⟩ = some e ∧ e ∈ w ∧ e ∉ january :=
  ⟨⟨_, _, _, rfl, rfl, rfl, by decide⟩, ⟨_, _, _, rfl, rfl, rfl, by decide⟩⟩

end Validity

namespace Version

variable {α : Type}

/-- What a version keeps of the days before a range. -/
def partBefore? (v : Version α) (range : Validity) : Option (Version α) :=
  if v.validity.last < range.start then some v
  else (v.validity.endingBefore? range.start).map v.withValidity

/-- What a version keeps of the days after a range. -/
def partAfter? (v : Version α) (range : Validity) : Option (Version α) :=
  if range.last < v.validity.start then some v
  else (v.validity.startingAfter? range.last).map v.withValidity

/-- The part before a range ends with the version or right before the range. -/
theorem partBefore?_eq_some_iff {v part : Version α} {range : Validity}
    (covers : v.validity.CoversSomeDay) :
    v.partBefore? range = some part ↔
      part.owner = v.owner ∧ part.validity.priority = v.validity.priority ∧
        part.validity.start = v.validity.start ∧ v.validity.start < range.start ∧
        part.validity.last.number = min v.validity.last.number (range.start.number - 1) := by
  simp only [Validity.CoversSomeDay, Day.le_def] at covers
  simp only [partBefore?]
  split
  next earlier =>
    rw [Day.lt_def] at earlier
    have lastMin :
        min v.validity.last.number (range.start.number - 1) = v.validity.last.number := by
      omega
    constructor
    · intro whole
      obtain rfl := Option.some.inj whole
      exact ⟨rfl, rfl, rfl, Day.lt_def.mpr (by omega), lastMin.symm⟩
    · rintro ⟨owner, priority, start, -, last⟩
      have lastEq := Day.eq_of_number_eq (last.trans lastMin)
      rw [Version.ext owner (Validity.ext start lastEq priority)]
  next later =>
    simp only [Day.lt_def, Int.not_lt] at later
    have lastMin :
        min v.validity.last.number (range.start.number - 1) = range.start.number - 1 := by
      omega
    simp only [Option.map_eq_some_iff, Validity.endingBefore?_eq_some_iff, lastMin]
    constructor
    · rintro ⟨w, ⟨start, priority, last, startsBefore⟩, rfl⟩
      exact ⟨rfl, priority, start, startsBefore, last⟩
    · rintro ⟨owner, priority, start, startsBefore, last⟩
      exact ⟨part.validity, ⟨start, priority, last, startsBefore⟩, Version.ext owner.symm rfl⟩

/-- The part after a range starts with the version or right after the range. -/
theorem partAfter?_eq_some_iff {v part : Version α} {range : Validity}
    (covers : v.validity.CoversSomeDay) :
    v.partAfter? range = some part ↔
      part.owner = v.owner ∧ part.validity.priority = v.validity.priority ∧
        part.validity.last = v.validity.last ∧ range.last < v.validity.last ∧
        part.validity.start.number = max v.validity.start.number (range.last.number + 1) := by
  simp only [Validity.CoversSomeDay, Day.le_def] at covers
  simp only [partAfter?]
  split
  next later =>
    rw [Day.lt_def] at later
    have startMax :
        max v.validity.start.number (range.last.number + 1) = v.validity.start.number := by
      omega
    constructor
    · intro whole
      obtain rfl := Option.some.inj whole
      exact ⟨rfl, rfl, rfl, Day.lt_def.mpr (by omega), startMax.symm⟩
    · rintro ⟨owner, priority, last, -, start⟩
      have startEq := Day.eq_of_number_eq (start.trans startMax)
      rw [Version.ext owner (Validity.ext startEq last priority)]
  next earlier =>
    simp only [Day.lt_def, Int.not_lt] at earlier
    have startMax :
        max v.validity.start.number (range.last.number + 1) = range.last.number + 1 := by
      omega
    simp only [Option.map_eq_some_iff, Validity.startingAfter?_eq_some_iff, startMax]
    constructor
    · rintro ⟨w, ⟨last, priority, start, endsAfter⟩, rfl⟩
      exact ⟨rfl, priority, last, endsAfter, start⟩
    · rintro ⟨owner, priority, last, endsAfter, start⟩
      exact ⟨part.validity, ⟨last, priority, start, endsAfter⟩, Version.ext owner.symm rfl⟩

theorem partBefore?_eq_none {v : Version α} {range : Validity}
    (covers : v.validity.CoversSomeDay) (startsLater : ¬ v.validity.start < range.start) :
    v.partBefore? range = none :=
  Option.eq_none_iff_forall_not_mem.mpr fun _ isPart =>
    startsLater ((partBefore?_eq_some_iff covers).mp isPart).2.2.2.1

theorem partAfter?_eq_none {v : Version α} {range : Validity}
    (covers : v.validity.CoversSomeDay) (endsEarlier : ¬ range.last < v.validity.last) :
    v.partAfter? range = none :=
  Option.eq_none_iff_forall_not_mem.mpr fun _ isPart =>
    endsEarlier ((partAfter?_eq_some_iff covers).mp isPart).2.2.2.1

theorem coversSomeDay_of_partBefore? {v part : Version α} {range : Validity}
    (covers : v.validity.CoversSomeDay) (isPart : v.partBefore? range = some part) :
    part.validity.CoversSomeDay := by
  obtain ⟨-, -, start, startsBefore, last⟩ := (partBefore?_eq_some_iff covers).mp isPart
  simp only [Validity.CoversSomeDay, Day.le_def, Day.lt_def, start] at *
  omega

theorem coversSomeDay_of_partAfter? {v part : Version α} {range : Validity}
    (covers : v.validity.CoversSomeDay) (isPart : v.partAfter? range = some part) :
    part.validity.CoversSomeDay := by
  obtain ⟨-, -, last, endsAfter, start⟩ := (partAfter?_eq_some_iff covers).mp isPart
  simp only [Validity.CoversSomeDay, Day.le_def, Day.lt_def, last] at *
  omega

/-- Some of the days of a version in a row, with its owner and its priority. -/
structure IsPartOf (part v : Version α) : Prop where
  owner : part.owner = v.owner
  priority : part.validity.priority = v.validity.priority
  within : part.validity.IsWithin v.validity

theorem isPartOf_of_part {v part : Version α} {range : Validity} (covers : v.validity.CoversSomeDay)
    (isPart : v.partBefore? range = some part ∨ v.partAfter? range = some part) :
    part.IsPartOf v := by
  cases isPart with
  | inl isPart =>
    obtain ⟨owner, priority, start, -, last⟩ := (partBefore?_eq_some_iff covers).mp isPart
    refine ⟨owner, priority, ?_, ?_⟩
    · rw [start]
      exact Int.le_refl _
    · rw [Day.le_def, last]
      exact Int.min_le_left _ _
  | inr isPart =>
    obtain ⟨owner, priority, last, -, start⟩ := (partAfter?_eq_some_iff covers).mp isPart
    refine ⟨owner, priority, ?_, ?_⟩
    · rw [Day.le_def, start]
      exact Int.le_max_left _ _
    · rw [last]
      exact Int.le_refl _

/-- A version that does not overlap a range stays whole on one side of it. -/
theorem parts_of_not_overlaps {v : Version α} {range : Validity}
    (covers : v.validity.CoversSomeDay) (rangeCovers : range.CoversSomeDay)
    (apart : ¬ v.validity.Overlaps range) :
    (v.partBefore? range = some v ∧ v.partAfter? range = none) ∨
      (v.partBefore? range = none ∧ v.partAfter? range = some v) := by
  have noBefore : _ → v.partBefore? range = none := partBefore?_eq_none covers
  have noAfter : _ → v.partAfter? range = none := partAfter?_eq_none covers
  simp only [Validity.CoversSomeDay, Validity.Overlaps, Day.le_def, Day.lt_def] at *
  by_cases earlier : v.validity.last.number < range.start.number
  · exact .inl ⟨if_pos earlier, noAfter (by omega)⟩
  · have later : range.last.number < v.validity.start.number := by omega
    exact .inr ⟨noBefore (by omega), if_pos later⟩

theorem isPart_iff_of_not_overlaps {v part : Version α} {range : Validity}
    (covers : v.validity.CoversSomeDay) (rangeCovers : range.CoversSomeDay)
    (apart : ¬ v.validity.Overlaps range) :
    (v.partBefore? range = some part ∨ v.partAfter? range = some part) ↔ v = part := by
  cases parts_of_not_overlaps covers rangeCovers apart with
  | inl whole => simp [whole.1, whole.2]
  | inr whole => simp [whole.1, whole.2]

/-- A day outside a range stays with the part on its side. -/
theorem exists_part_of_mem {v : Version α} {range : Validity} {d : Day} (mem : d ∈ v.validity)
    (outside : d ∉ range) :
    ∃ part, (v.partBefore? range = some part ∨ v.partAfter? range = some part) ∧
      d ∈ part.validity := by
  have covers := Validity.coversSomeDay_of_mem mem
  simp only [Validity.mem_def, Day.le_def, not_and] at mem outside
  -- Either part is given by its bounds, which are days because they lie between two days.
  by_cases earlier : d.number < range.start.number
  · obtain ⟨last, number⟩ := Day.exists_of_number_between d v.validity.last
      (n := min v.validity.last.number (range.start.number - 1)) (by omega) (by omega)
    refine ⟨⟨v.owner, v.validity.start, last, v.validity.priority⟩, .inl ?_, mem.1, ?_⟩
    · exact (partBefore?_eq_some_iff covers).mpr
        ⟨rfl, rfl, rfl, Day.lt_def.mpr (by omega), number⟩
    · simp only [Day.le_def]
      omega
  · have later := outside (by omega)
    obtain ⟨start, number⟩ := Day.exists_of_number_between v.validity.start d
      (n := max v.validity.start.number (range.last.number + 1)) (by omega) (by omega)
    refine ⟨⟨v.owner, start, v.validity.last, v.validity.priority⟩, .inr ?_, ?_, mem.2⟩
    · exact (partAfter?_eq_some_iff covers).mpr
        ⟨rfl, rfl, rfl, Day.lt_def.mpr (by omega), number⟩
    · simp only [Day.le_def]
      omega

theorem mem_of_partBefore? {v part : Version α} {range : Validity}
    (covers : v.validity.CoversSomeDay) (isPart : v.partBefore? range = some part) {d : Day} :
    d ∈ part.validity ↔ d ∈ v.validity ∧ d < range.start := by
  obtain ⟨-, -, start, -, last⟩ := (partBefore?_eq_some_iff covers).mp isPart
  simp only [Validity.mem_def, Day.le_def, Day.lt_def, start, last]
  omega

theorem mem_of_partAfter? {v part : Version α} {range : Validity}
    (covers : v.validity.CoversSomeDay) (isPart : v.partAfter? range = some part) {d : Day} :
    d ∈ part.validity ↔ d ∈ v.validity ∧ range.last < d := by
  obtain ⟨-, -, last, -, start⟩ := (partAfter?_eq_some_iff covers).mp isPart
  simp only [Validity.mem_def, Day.le_def, Day.lt_def, start, last]
  omega

/-- The days of a part are those of the version on one side of the range. -/
theorem mem_of_part {v part : Version α} {range : Validity} (covers : v.validity.CoversSomeDay)
    (isPart : v.partBefore? range = some part ∨ v.partAfter? range = some part) {d : Day}
    (mem : d ∈ part.validity) : d ∈ v.validity ∧ d ∉ range := by
  cases isPart with
  | inl isPart =>
    obtain ⟨memV, before⟩ := (mem_of_partBefore? covers isPart).mp mem
    exact ⟨memV, fun memRange => Int.lt_irrefl _ (Int.lt_of_lt_of_le before memRange.1)⟩
  | inr isPart =>
    obtain ⟨memV, after⟩ := (mem_of_partAfter? covers isPart).mp mem
    exact ⟨memV, fun memRange => Int.lt_irrefl _ (Int.lt_of_lt_of_le after memRange.2)⟩

/-- The days of a part depend on the days of the version only. -/
theorem validity_partBefore? {v w : Version α} (same : v.validity = w.validity) (range : Validity) :
    (v.partBefore? range).map (·.validity) = (w.partBefore? range).map (·.validity) := by
  rw [partBefore?, partBefore?, same, apply_ite (Option.map _),
    apply_ite (Option.map _), Option.map_map, Option.map_map]
  simp [same, Function.comp_def, withValidity]

theorem validity_partAfter? {v w : Version α} (same : v.validity = w.validity) (range : Validity) :
    (v.partAfter? range).map (·.validity) = (w.partAfter? range).map (·.validity) := by
  simp only [partAfter?, same, apply_ite (Option.map _), Option.map_map]
  simp [same, Function.comp_def, withValidity]

theorem validity_eq_of_parts {v w part other : Version α} {range : Validity}
    (covers : v.validity.CoversSomeDay) (rangeCovers : range.CoversSomeDay)
    (same : v.validity = w.validity)
    (isPart : v.partBefore? range = some part ∨ v.partAfter? range = some part)
    (isOther : w.partBefore? range = some other ∨ w.partAfter? range = some other)
    {d : Day} (memPart : d ∈ part.validity) (memOther : d ∈ other.validity) :
    part.validity = other.validity := by
  have coversW : w.validity.CoversSomeDay := same ▸ covers
  -- The day lies on one side of the range, so both parts lie there.
  have oneSide (before : d < range.start) (after : range.last < d) : False := by
    simp only [Validity.CoversSomeDay, Day.le_def, Day.lt_def] at rangeCovers before after
    omega
  cases isPart with
  | inl isPart =>
    have before := ((mem_of_partBefore? covers isPart).mp memPart).2
    cases isOther with
    | inl isOther => simpa [isPart, isOther] using validity_partBefore? same range
    | inr isOther => exact (oneSide before ((mem_of_partAfter? coversW isOther).mp memOther).2).elim
  | inr isPart =>
    have after := ((mem_of_partAfter? covers isPart).mp memPart).2
    cases isOther with
    | inl isOther => exact (oneSide ((mem_of_partBefore? coversW isOther).mp memOther).2 after).elim
    | inr isOther => simpa [isPart, isOther] using validity_partAfter? same range

end Version

end QuayTimeline
