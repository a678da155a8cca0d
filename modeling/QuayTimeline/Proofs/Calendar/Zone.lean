import Mathlib.Data.List.Basic
import QuayTimeline.Calendar.Zone

/-! # What clocks show

A table of changes in order of time says which local second clocks show at each universal one.
Looking a local second up finds all universal ones at which clocks show it, in their order, so a day
starts when clocks first show its first second, and ends when they last show its last one. Where
clocks are put back over midnight the later day may start before the earlier one ends. -/

namespace QuayTimeline

def Day.startSecond (d : Day) : Int :=
  d.number * secondsPerDay

def Day.endSecond (d : Day) : Int :=
  d.number * secondsPerDay + 86399

theorem Day.endSecond_lt_startSecond {d e : Day} (before : d < e) :
    d.endSecond < e.startSecond := by
  rw [Day.lt_def] at before
  simp only [endSecond, startSecond, secondsPerDay]
  omega

theorem Day.startSecond_of_next {d e : Day} (next : e.number = d.number + 1) :
    e.startSecond = d.endSecond + 1 := by
  simp only [startSecond, endSecond, secondsPerDay]
  omega

theorem Instant.of?_eq_some_iff {second : Int} {nano : Nat} {t : Instant} :
    of? second nano = some t ↔ t.second = second ∧ t.nano = nano := by
  rw [of?]
  split
  next representable =>
    rw [Option.some.injEq]
    exact ⟨fun same => same ▸ ⟨rfl, rfl⟩, fun ⟨sameSecond, sameNano⟩ =>
      Instant.ext sameSecond.symm sameNano.symm⟩
  next outside =>
    refine ⟨fun same => (nomatch same), fun ⟨sameSecond, sameNano⟩ => absurd ?_ outside⟩
    subst sameSecond sameNano
    exact ⟨t.firstSecond_le, t.le_lastSecond, t.nano_lt, t.leap⟩

namespace Zone

/-! ## The offset in force -/

def InOrder (zone : Zone) : Prop :=
  zone.changes.Pairwise (·.second < ·.second)

instance (zone : Zone) : Decidable zone.InOrder :=
  inferInstanceAs (Decidable (List.Pairwise _ _))

/-- The offset in force at a universal second, where a given one holds before all changes. -/
def offsetFrom (offset : Offset) (second : Int) : List ClockChange → Offset
  | [] => offset
  | change :: changes =>
    if second < change.second then offset else offsetFrom change.offset second changes

def offsetAt (zone : Zone) (second : Int) : Offset :=
  offsetFrom zone.initial second zone.changes

/-- The local second that clocks show at a universal one. -/
def localSecond (zone : Zone) (second : Int) : Int :=
  second + (zone.offsetAt second).seconds

variable {zone : Zone} {offset : Offset} {changes : List ClockChange} {l s t : Int}

theorem offsetFrom_of_lt (before : ∀ change ∈ changes, t < change.second) :
    offsetFrom offset t changes = offset := by
  cases changes with
  | nil => rfl
  | cons change rest => rw [offsetFrom, if_pos (before change List.mem_cons_self)]

theorem offsetFrom_eq_of_no_change (ordered : changes.Pairwise (·.second < ·.second)) (le : s ≤ t)
    (none : ∀ change ∈ changes, change.second ≤ s ∨ t < change.second) :
    offsetFrom offset s changes = offsetFrom offset t changes := by
  induction changes generalizing offset with
  | nil => rfl
  | cons change rest ih =>
    obtain ⟨-, orderedRest⟩ := List.pairwise_cons.mp ordered
    obtain ⟨here, noneRest⟩ := List.forall_mem_cons.mp none
    rw [offsetFrom, offsetFrom]
    cases here with
    | inl passed =>
      rw [if_neg (Int.not_lt.mpr passed), if_neg (Int.not_lt.mpr (Int.le_trans passed le))]
      exact ih orderedRest noneRest
    | inr ahead => rw [if_pos (Int.lt_of_le_of_lt le ahead), if_pos ahead]

/-! ## Looking up a local second -/

theorem all_some_le (le : s ≤ t) : (some s).all (· ≤ t) := by
  simpa only [Option.all_some, decide_eq_true_eq] using le

theorem all_le_trans {start : Option Int} (started : start.all (· ≤ s)) (le : s ≤ t) :
    start.all (· ≤ t) := by
  cases start with
  | none => rfl
  | some first => simp only [Option.all_some, decide_eq_true_eq] at started ⊢; omega

/-- From a start on, a local second is read just when clocks show it. -/
theorem mem_readingsFrom {start : Option Int} (ordered : changes.Pairwise (·.second < ·.second))
    (later : ∀ change ∈ changes, start.all (· ≤ change.second)) :
    t ∈ readingsFrom start offset l changes ↔
      start.all (· ≤ t) ∧ t + (offsetFrom offset t changes).seconds = l := by
  induction changes generalizing start offset with
  | nil =>
    simp only [readingsFrom, offsetFrom]
    split
    next started =>
      rw [List.mem_singleton]
      exact ⟨fun same => ⟨same ▸ started, by omega⟩, fun shown => by omega⟩
    next notStarted =>
      refine ⟨fun member => (nomatch member), fun shown => absurd shown.1 ?_⟩
      rwa [← shown.2, Int.add_sub_cancel] at notStarted
  | cons change rest ih =>
    obtain ⟨below, orderedRest⟩ := List.pairwise_cons.mp ordered
    obtain ⟨started, -⟩ := List.forall_mem_cons.mp later
    have memRest : t ∈ readingsFrom (some change.second) change.offset l rest ↔
        change.second ≤ t ∧ t + (offsetFrom change.offset t rest).seconds = l := by
      rw [ih orderedRest (fun next member => all_some_le (Int.le_of_lt (below next member))),
        Option.all_some, decide_eq_true_eq]
    simp only [readingsFrom, offsetFrom]
    -- A second belongs to the stretch before the change, or to one after it.
    by_cases before : t < change.second
    · have notLater : t ∉ readingsFrom (some change.second) change.offset l rest :=
        fun member => absurd (memRest.mp member).1 (Int.not_le.mpr before)
      rw [if_pos before]
      split
      next inside =>
        rw [List.mem_cons, or_iff_left notLater]
        exact ⟨fun same => ⟨same ▸ inside.1, by omega⟩, fun shown => by omega⟩
      next outside =>
        refine ⟨fun member => absurd member notLater, fun shown => absurd ?_ outside⟩
        rw [← shown.2, Int.add_sub_cancel]
        exact ⟨shown.1, before⟩
    · have reached := Int.not_lt.mp before
      rw [if_neg before, and_iff_right (all_le_trans started reached)]
      split
      next inside =>
        have notHere : t ≠ l - offset.seconds := fun same => before (same ▸ inside.2)
        rw [List.mem_cons, or_iff_right notHere, memRest, and_iff_right reached]
      next => rw [memRest, and_iff_right reached]

theorem pairwise_readingsFrom {start : Option Int}
    (ordered : changes.Pairwise (·.second < ·.second)) :
    (readingsFrom start offset l changes).Pairwise (· < ·) := by
  induction changes generalizing start offset with
  | nil =>
    simp only [readingsFrom]
    split
    next => exact List.pairwise_singleton _ _
    next => exact .nil
  | cons change rest ih =>
    obtain ⟨below, orderedRest⟩ := List.pairwise_cons.mp ordered
    simp only [readingsFrom]
    split
    next inside =>
      refine List.pairwise_cons.mpr ⟨fun u member => ?_, ih orderedRest⟩
      have reached := ((mem_readingsFrom orderedRest fun next member =>
        all_some_le (Int.le_of_lt (below next member))).mp member).1
      exact Int.lt_of_lt_of_le inside.2 (of_decide_eq_true reached)
    next => exact ih orderedRest

/-- A local second is read just when clocks show it. -/
theorem mem_readings (ordered : zone.InOrder) :
    t ∈ zone.readings l ↔ zone.localSecond t = l := by
  rw [readings, mem_readingsFrom ordered fun _ _ => rfl]
  exact and_iff_right rfl

/-! ## The start and the end of a day -/

theorem map_second_of_mapM {nano : Nat} {seconds : List Int} {instants : List Instant}
    (taken : seconds.mapM (Instant.of? · nano) = some instants) :
    instants.map (·.second) = seconds ∧ ∀ found ∈ instants, found.nano = nano := by
  induction seconds generalizing instants with
  | nil =>
    cases taken
    exact ⟨rfl, List.forall_mem_nil _⟩
  | cons second rest ih =>
    rw [List.mapM_cons] at taken
    obtain ⟨first, isFirst, taken⟩ := Option.bind_eq_some_iff.mp taken
    obtain ⟨others, takenRest, ⟨rfl⟩⟩ := Option.bind_eq_some_iff.mp taken
    obtain ⟨sameSecond, sameNano⟩ := Instant.of?_eq_some_iff.mp isFirst
    obtain ⟨sameRest, nanos⟩ := ih takenRest
    exact ⟨by rw [List.map_cons, sameSecond, sameRest], List.forall_mem_cons.mpr ⟨sameNano, nanos⟩⟩

/-- Where instants are found for a local second, they are all its readings. -/
theorem map_second_instantsAt {nano : Nat} {found : Instant}
    (member : found ∈ zone.instantsAt l nano) :
    (zone.instantsAt l nano).map (·.second) = zone.readings l ∧ found.nano = nano := by
  rw [instantsAt] at member ⊢
  cases taken : (zone.readings l).mapM (Instant.of? · nano) with
  | none =>
    rw [taken] at member
    cases member
  | some instants =>
    rw [taken] at member
    obtain ⟨same, nanos⟩ := map_second_of_mapM taken
    exact ⟨same, nanos found member⟩

/-- A day starts when clocks first show its first second. -/
structure Starts (zone : Zone) (d : Day) (t : Instant) : Prop where
  nano : t.nano = 0
  shown : zone.localSecond t.second = d.startSecond
  first : ∀ s, zone.localSecond s = d.startSecond → t.second ≤ s

/-- A day ends when clocks last show its last second. -/
structure Ends (zone : Zone) (d : Day) (t : Instant) : Prop where
  nano : t.nano = nanosPerSecond - 1
  shown : zone.localSecond t.second = d.endSecond
  last : ∀ s, zone.localSecond s = d.endSecond → s ≤ t.second

variable {d e : Day} {start stop : Instant}

theorem starts_of_startOfDay? (ordered : zone.InOrder) (found : zone.startOfDay? d = some start) :
    zone.Starts d start := by
  obtain ⟨same, nano⟩ := map_second_instantsAt (List.mem_of_head? found)
  have head : (zone.readings d.startSecond).head? = some start.second := by
    rw [Day.startSecond, ← same, List.head?_map]
    exact congrArg (Option.map (·.second)) found
  obtain ⟨later, split⟩ := List.head?_eq_some_iff.mp head
  have increasing : (start.second :: later).Pairwise (· < ·) :=
    split ▸ pairwise_readingsFrom ordered
  refine ⟨nano, (mem_readings ordered).mp (List.mem_of_head? head), fun s shown => ?_⟩
  have member := (mem_readings ordered).mpr shown
  rw [split] at member
  cases List.mem_cons.mp member with
  | inl same => exact Int.le_of_eq same.symm
  | inr member => exact Int.le_of_lt ((List.pairwise_cons.mp increasing).1 s member)

theorem ends_of_endOfDay? (ordered : zone.InOrder) (found : zone.endOfDay? d = some stop) :
    zone.Ends d stop := by
  obtain ⟨same, nano⟩ := map_second_instantsAt (List.mem_of_getLast? found)
  have getLast : (zone.readings d.endSecond).getLast? = some stop.second := by
    rw [Day.endSecond, ← same, List.getLast?_map]
    exact congrArg (Option.map (·.second)) found
  obtain ⟨earlier, split⟩ := List.getLast?_eq_some_iff.mp getLast
  have increasing : (earlier ++ [stop.second]).Pairwise (· < ·) :=
    split ▸ pairwise_readingsFrom ordered
  refine ⟨nano, (mem_readings ordered).mp (List.mem_of_getLast? getLast), fun s shown => ?_⟩
  have member := (mem_readings ordered).mpr shown
  rw [split] at member
  cases List.mem_append.mp member with
  | inl member =>
    exact Int.le_of_lt ((List.pairwise_append.mp increasing).2.2 s member _ List.mem_cons_self)
  | inr same => exact Int.le_of_eq (List.mem_singleton.mp same)

/-! ## One day after another -/

/-- Clocks show the start of a day before they last show the end of an earlier one. -/
def GoesBack (zone : Zone) (day earlier : Day) : Prop :=
  ∃ s t, s < t ∧ zone.localSecond s = day.startSecond ∧ zone.localSecond t = earlier.endSecond

/-- A day ends before a later one starts, unless clocks go back from the later to the earlier. -/
theorem Ends.lt_iff (ends : zone.Ends d stop) (starts : zone.Starts e start) (before : d < e) :
    stop < start ↔ ¬ zone.GoesBack e d := by
  have apart := Day.endSecond_lt_startSecond before
  constructor
  · rintro stopsFirst ⟨s, t, back, shownStart, shownEnd⟩
    have first := starts.first s shownStart
    have last := ends.last t shownEnd
    have le : stop.second ≤ start.second := by
      cases stopsFirst with
      | inl lt => exact Int.le_of_lt lt
      | inr same => exact Int.le_of_eq same.1
    omega
  · intro notBack
    refine .inl (Int.not_le.mp fun le => notBack ⟨start.second, stop.second, ?_, starts.shown,
      ends.shown⟩)
    -- At one second clocks show one day only.
    refine Int.lt_iff_le_and_ne.mpr ⟨le, fun same => ?_⟩
    rw [← starts.shown, ← ends.shown, same] at apart
    exact Int.lt_irrefl _ apart

/-- A day starts right after the one before it ends, if clocks do not go back from the one to the
other and are not changed in between. -/
theorem Ends.succ_eq_iff (ends : zone.Ends d stop) (starts : zone.Starts e start)
    (next : e.number = d.number + 1) :
    stop.second + 1 = start.second ↔
      ¬ zone.GoesBack e d ∧ zone.offsetAt (stop.second + 1) = zone.offsetAt stop.second := by
  have before : d < e := by
    rw [Day.lt_def]
    omega
  have follows := Day.startSecond_of_next next
  have shownEnd := ends.shown
  have shownStart := starts.shown
  rw [localSecond] at shownEnd shownStart
  rw [← ends.lt_iff starts before]
  constructor
  · intro same
    refine ⟨.inl (by omega), Offset.ext ?_⟩
    rw [same]
    omega
  · rintro ⟨stopsFirst, unchanged⟩
    have reached : start.second ≤ stop.second + 1 := by
      refine starts.first _ ?_
      rw [localSecond, unchanged]
      omega
    cases stopsFirst with
    | inl lt => omega
    | inr same =>
      rw [same.1] at shownEnd
      omega

/-! ## Tables without surprises -/

/-- The day that clocks show at a universal second, by its number. -/
def localDay (zone : Zone) (second : Int) : Int :=
  zone.localSecond second / secondsPerDay

/-- No change of a list puts clocks back into an earlier day than they showed right before it. -/
def KeepsDaysFrom (offset : Offset) : List ClockChange → Prop
  | [] => True
  | change :: changes =>
    (change.second - 1 + offset.seconds) / secondsPerDay ≤
        (change.second + change.offset.seconds) / secondsPerDay ∧
      KeepsDaysFrom change.offset changes

instance decidableKeepsDaysFrom (offset : Offset) :
    (changes : List ClockChange) → Decidable (KeepsDaysFrom offset changes)
  | [] => isTrue trivial
  | change :: changes =>
    have := decidableKeepsDaysFrom change.offset changes
    inferInstanceAs (Decidable (_ ∧ _))

def KeepsDays (zone : Zone) : Prop :=
  KeepsDaysFrom zone.initial zone.changes

instance (zone : Zone) : Decidable zone.KeepsDays :=
  inferInstanceAs (Decidable (KeepsDaysFrom _ _))

/-- Any two changes are at least two days apart, more than two offsets can differ. -/
def IsSpaced (zone : Zone) : Prop :=
  zone.changes.Pairwise (·.second + 2 * secondsPerDay ≤ ·.second)

instance (zone : Zone) : Decidable zone.IsSpaced :=
  inferInstanceAs (Decidable (List.Pairwise _ _))

theorem localDay_mono_from (ordered : changes.Pairwise (·.second < ·.second))
    (keeps : KeepsDaysFrom offset changes) (le : s ≤ t) :
    (s + (offsetFrom offset s changes).seconds) / secondsPerDay ≤
      (t + (offsetFrom offset t changes).seconds) / secondsPerDay := by
  induction changes generalizing offset s with
  | nil =>
    simp only [offsetFrom, secondsPerDay]
    omega
  | cons change rest ih =>
    obtain ⟨below, orderedRest⟩ := List.pairwise_cons.mp ordered
    obtain ⟨kept, keepsRest⟩ := keeps
    simp only [offsetFrom, secondsPerDay] at kept ih ⊢
    split
    next before =>
      split
      next => omega
      next reached =>
        -- Up to the change, over it, and on from there.
        have onward := ih orderedRest keepsRest (Int.not_lt.mp reached)
        rw [offsetFrom_of_lt below] at onward
        omega
    next passed =>
      rw [if_neg (by omega)]
      exact ih orderedRest keepsRest le

theorem not_goesBack (ordered : zone.InOrder) (keeps : zone.KeepsDays) (before : d < e) :
    ¬ zone.GoesBack e d := by
  rintro ⟨s, t, lt, shownStart, shownEnd⟩
  have mono : zone.localDay s ≤ zone.localDay t :=
    localDay_mono_from ordered keeps (Int.le_of_lt lt)
  rw [Day.lt_def] at before
  simp only [localDay, shownStart, shownEnd, Day.startSecond, Day.endSecond, secondsPerDay] at mono
  omega

theorem IsSpaced.inOrder (spaced : zone.IsSpaced) : zone.InOrder := by
  refine spaced.imp fun {a b} apart => ?_
  simp only [secondsPerDay] at apart
  omega

theorem exists_change_of_offsetFrom_ne (ordered : changes.Pairwise (·.second < ·.second))
    (le : s ≤ t) (changed : offsetFrom offset s changes ≠ offsetFrom offset t changes) :
    ∃ change ∈ changes, s < change.second ∧ change.second ≤ t := by
  by_contra none
  refine changed (offsetFrom_eq_of_no_change ordered le fun change member => ?_)
  by_contra between
  exact none ⟨change, member, by omega⟩

theorem IsSpaced.apart (spaced : zone.IsSpaced) {a b : ClockChange} (memberA : a ∈ zone.changes)
    (memberB : b ∈ zone.changes) (distinct : a.second ≠ b.second) :
    a.second + 2 * secondsPerDay ≤ b.second ∨ b.second + 2 * secondsPerDay ≤ a.second := by
  obtain ⟨i, boundI, rfl⟩ := List.mem_iff_getElem.mp memberA
  obtain ⟨j, boundJ, rfl⟩ := List.mem_iff_getElem.mp memberB
  have apart := List.pairwise_iff_getElem.mp spaced
  obtain before | rfl | after := Nat.lt_trichotomy i j
  · exact .inl (apart i j boundI boundJ before)
  · exact absurd rfl distinct
  · exact .inr (apart j i boundJ boundI after)

/-- For two days around a change, the offset is what it was right before it or is right at it. -/
theorem IsSpaced.offsetAt_eq (spaced : zone.IsSpaced) {change : ClockChange}
    (member : change ∈ zone.changes) (le : s ≤ t)
    (near : change.second - 2 * secondsPerDay ≤ s ∧ t < change.second + 2 * secondsPerDay)
    (side : t < change.second ∨ change.second ≤ s) : zone.offsetAt s = zone.offsetAt t := by
  refine offsetFrom_eq_of_no_change spaced.inOrder le fun other memberOther => ?_
  by_cases same : change.second = other.second
  · omega
  · have apart := spaced.apart member memberOther same
    simp only [secondsPerDay] at apart near
    omega

/-- Where changes are spaced, clocks are not changed right after the end of a day that is followed
by the start of the next one. -/
theorem IsSpaced.offsetAt_succ_eq (spaced : zone.IsSpaced) (ends : zone.Ends d stop)
    (starts : zone.Starts e start) (next : e.number = d.number + 1) :
    zone.offsetAt (stop.second + 1) = zone.offsetAt stop.second := by
  by_contra changed
  obtain ⟨change, member, after, atMost⟩ := exists_change_of_offsetFrom_ne spaced.inOrder
    (by omega : stop.second ≤ stop.second + 1) (Ne.symm changed)
  have second : change.second = stop.second + 1 := by omega
  have shownEnd := ends.shown
  have shownStart := starts.shown
  rw [localSecond] at shownEnd shownStart
  have follows := Day.startSecond_of_next next
  -- Two offsets differ by less than two days, so start and end are that close.
  have westEnd := (zone.offsetAt stop.second).neg_day_lt
  have eastEnd := (zone.offsetAt stop.second).lt_day
  have westStart := (zone.offsetAt start.second).neg_day_lt
  have eastStart := (zone.offsetAt start.second).lt_day
  by_cases later : change.second < start.second
  · -- The second before the start shows the end of the day once more.
    have here : zone.offsetAt (start.second - 1) = zone.offsetAt start.second := by
      refine spaced.offsetAt_eq member (by omega) ?_ (.inr (by omega))
      simp only [secondsPerDay]
      omega
    have again := ends.last (start.second - 1) (by rw [localSecond, here]; omega)
    omega
  · by_cases same : start.second = change.second
    · refine changed (Offset.ext ?_)
      rw [same, second] at shownStart
      omega
    · have here : zone.offsetAt start.second = zone.offsetAt stop.second := by
        refine spaced.offsetAt_eq member (by omega) ?_ (.inl (by omega))
        simp only [secondsPerDay]
        omega
      rw [here] at shownStart
      omega

end Zone

end QuayTimeline
