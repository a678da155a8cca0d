import QuayTimeline.Proofs.Flattening.Instants

/-! # Copies at a fixed offset

Where clocks are never changed they show each local second once, at an instant less than a day away.
So only the start of the first representable day can be out of reach, and a copy holds at just the
instants whose local day lies in its validity. One kind of instant is left out: the leap second
after the last second of the last day, since a copy ends with that second's last nanosecond. -/

namespace QuayTimeline

/-- A day by its number, from the start of a validity to its end; one without an end holds on also
after the last representable day. -/
def Validity.HoldsOn (v : Validity) (number : Int) : Prop :=
  v.start.number ≤ number ∧ (v.IsIndefinite ∨ number ≤ v.last.number)

theorem Validity.holdsOn_number_iff {v : Validity} {d : Day} : v.HoldsOn d.number ↔ d ∈ v := by
  have le := d.le_lastDayNumber
  simp only [HoldsOn, IsIndefinite, Day.ext_iff, mem_def, Day.le_def]
  change _ ∧ (_ = lastDayNumber ∨ _) ↔ _
  omega

/-- An instant in a leap second that clocks show after the last second of a closed validity. -/
structure Zone.IsLeapAfter (zone : Zone) (v : Validity) (t : Instant) : Prop where
  closed : ¬ v.IsIndefinite
  leap : nanosPerSecond ≤ t.nano
  lastSecond : zone.localSecond t.second = v.last.endSecond

theorem Instant.of?_eq_none_iff {second : Int} {nano : Nat} (short : nano < nanosPerSecond) :
    of? second nano = none ↔ second < firstSecond ∨ lastSecond < second := by
  have fits : nano < 2 * nanosPerSecond := by omega
  have noLeap : ¬ nanosPerSecond ≤ nano := Nat.not_le.mpr short
  simp only [of?, fits, noLeap, false_implies, and_true, dite_eq_right_iff, reduceCtorEq,
    imp_false, not_and_or, Int.not_le]

namespace Zone

variable {zone : Zone} {offset : Offset} {d : Day} {v : Validity}
variable {range : ValidBetween} {t : Instant}

/-! ## The start and the end of a day -/

theorem startOfDay?_fixed (offset : Offset) (d : Day) :
    (fixed offset).startOfDay? d = Instant.of? (d.startSecond - offset.seconds) 0 := by
  simp only [startOfDay?, instantsAt, readings, fixed, readingsFrom, Option.all_none, if_true,
    List.mapM_cons, List.mapM_nil, Day.startSecond]
  cases Instant.of? (d.number * secondsPerDay - offset.seconds) 0 <;> rfl

theorem endOfDay?_fixed (offset : Offset) (d : Day) : (fixed offset).endOfDay? d =
    Instant.of? (d.endSecond - offset.seconds) (nanosPerSecond - 1) := by
  simp only [endOfDay?, instantsAt, readings, fixed, readingsFrom, Option.all_none, if_true,
    List.mapM_cons, List.mapM_nil, Day.endSecond]
  cases Instant.of? (d.number * secondsPerDay + 86399 - offset.seconds) (nanosPerSecond - 1) <;> rfl

/-- A day starts in time unless it is the first one, and clocks are ahead of the universal ones. -/
theorem startOfDay?_fixed_eq_none_iff :
    (fixed offset).startOfDay? d = none ↔ d = Day.first ∧ 0 < offset.seconds := by
  have low := d.firstDayNumber_le
  have high := d.le_lastDayNumber
  have west := offset.neg_day_lt
  have east := offset.lt_day
  rw [startOfDay?_fixed, Instant.of?_eq_none_iff (by decide), Day.ext_iff]
  simp only [Day.startSecond, Day.first, firstSecond, lastSecond, secondsPerDay] at *
  omega

/-- All days but the last one end in time. -/
theorem exists_endOfDay?_fixed (offset : Offset) (notLast : d ≠ Day.last) :
    ∃ toDate, (fixed offset).endOfDay? d = some toDate := by
  apply Option.ne_none_iff_exists'.mp
  have low := d.firstDayNumber_le
  have high := d.le_lastDayNumber
  have west := offset.neg_day_lt
  have east := offset.lt_day
  rw [Ne, Day.ext_iff] at notLast
  rw [Ne, endOfDay?_fixed, Instant.of?_eq_none_iff (by decide)]
  simp only [Day.endSecond, Day.last, firstSecond, lastSecond, secondsPerDay] at *
  omega

theorem rangeOf?_fixed_eq_none_iff :
    (fixed offset).rangeOf? v = none ↔ v.start = Day.first ∧ 0 < offset.seconds := by
  rw [← startOfDay?_fixed_eq_none_iff, rangeOf?, Validity.end?]
  cases (fixed offset).startOfDay? v.start with
  | none => simp
  | some fromDate =>
    by_cases indefinite : v.IsIndefinite
    · simp [indefinite]
    · obtain ⟨toDate, ends⟩ := exists_endOfDay?_fixed offset indefinite
      simp [indefinite, ends]

theorem toDate_eq_none_iff (found : zone.rangeOf? v = some range) :
    range.toDate = none ↔ v.IsIndefinite := by
  obtain ⟨fromDate, -, found⟩ := Option.bind_eq_some_iff.mp found
  rw [Validity.end?] at found
  by_cases indefinite : v.IsIndefinite
  · rw [if_pos indefinite] at found
    cases found
    simp [indefinite]
  · rw [if_neg indefinite] at found
    obtain ⟨toDate, -, ⟨rfl⟩⟩ := Option.bind_eq_some_iff.mp found
    simp [indefinite]

/-! ## Instants and their local days -/

theorem fromDate_le_iff (found : (fixed offset).startOfDay? d = some range.fromDate) :
    range.fromDate ≤ t ↔ d.number ≤ (fixed offset).localDay t.second := by
  rw [startOfDay?_fixed, Instant.of?_eq_some_iff] at found
  obtain ⟨second, nano⟩ := found
  change range.fromDate.second < t.second ∨ _ ∧ range.fromDate.nano ≤ t.nano ↔
    _ ≤ (t.second + offset.seconds) / secondsPerDay
  simp only [second, nano, Day.startSecond, secondsPerDay]
  omega

theorem le_toDate_iff {toDate : Instant} (found : (fixed offset).endOfDay? d = some toDate) :
    t ≤ toDate ↔ (fixed offset).localDay t.second ≤ d.number ∧
      ¬ (nanosPerSecond ≤ t.nano ∧ (fixed offset).localSecond t.second = d.endSecond) := by
  rw [endOfDay?_fixed, Instant.of?_eq_some_iff] at found
  obtain ⟨second, nano⟩ := found
  change t.second < toDate.second ∨ _ ∧ t.nano ≤ toDate.nano ↔
    (t.second + offset.seconds) / secondsPerDay ≤ _ ∧ ¬ (_ ∧ t.second + offset.seconds = _)
  simp only [second, nano, Day.endSecond, secondsPerDay, nanosPerSecond]
  omega

/-- An instant lies in the range of a validity just when its local day lies in the validity, the
leap second after the last second apart. -/
theorem mem_rangeOf?_fixed_iff (found : (fixed offset).rangeOf? v = some range) :
    t ∈ range ↔
      v.HoldsOn ((fixed offset).localDay t.second) ∧ ¬ (fixed offset).IsLeapAfter v t := by
  have starts : range.fromDate ≤ t ↔ _ := fromDate_le_iff (startOfDay?_of_rangeOf? found)
  change range.fromDate ≤ t ∧ (∀ toDate ∈ range.toDate, t ≤ toDate) ↔ _
  rw [starts, Validity.HoldsOn, and_assoc]
  apply and_congr_right
  intro _
  by_cases indefinite : v.IsIndefinite
  · have noEnd := (toDate_eq_none_iff found).mpr indefinite
    have noLeap : ¬ (fixed offset).IsLeapAfter v t := fun after => after.closed indefinite
    simp [noEnd, noLeap, indefinite]
  · obtain ⟨toDate, ends, hasEnd⟩ := endOfDay?_of_rangeOf? found indefinite
    have leapAfter : (fixed offset).IsLeapAfter v t ↔ nanosPerSecond ≤ t.nano ∧
        (fixed offset).localSecond t.second = v.last.endSecond :=
      ⟨fun after => ⟨after.leap, after.lastSecond⟩, fun after => ⟨indefinite, after.1, after.2⟩⟩
    simp only [hasEnd, Option.mem_some_iff, forall_eq', le_toDate_iff ends, leapAfter, indefinite,
      false_or]

end Zone

/-- At a fixed offset a quay is copied unless its validity starts on the first representable day and
the offset is to the east. The copy has an end just when the validity has one, and holds at just the
instants whose local day lies in the validity, but for the leap second after the last one of its
last day, at which it does not hold any more. -/
theorem Quay.withValidity_fixed (offset : Offset) (q : Quay) (v : Validity) :
    (∀ error, q.withValidity (.fixed offset) v = .error error ↔ v.start = Day.first ∧
      0 < offset.seconds ∧ error = .nonexistentLocalTime q.label Day.first) ∧
    ∀ copy, q.withValidity (.fixed offset) v = .ok copy →
      ∃ range, copy.validBetween = some range ∧ (range.toDate = none ↔ v.IsIndefinite) ∧
        ∀ t, (¬ (Zone.fixed offset).IsLeapAfter v t →
            (t ∈ range ↔ v.HoldsOn ((Zone.fixed offset).localDay t.second))) ∧
          ((Zone.fixed offset).IsLeapAfter v t → t ∉ range) := by
  constructor
  · intro error
    rw [withValidity_eq_error_iff, Zone.rangeOf?_fixed_eq_none_iff, and_assoc]
    apply and_congr_right
    intro first
    apply and_congr_right
    intro east
    have hidden : (Zone.fixed offset).startOfDay? Day.first = none :=
      Zone.startOfDay?_fixed_eq_none_iff.mpr ⟨rfl, east⟩
    simp [Zone.hiddenDay, first, hidden]
  · intro copy copied
    obtain ⟨range, found, rfl⟩ := withValidity_eq_ok_iff.mp copied
    refine ⟨range, rfl, Zone.toDate_eq_none_iff found, fun t => ?_⟩
    have mem : t ∈ range ↔ _ := Zone.mem_rangeOf?_fixed_iff found
    exact ⟨fun noLeap => mem.trans (and_iff_left noLeap), fun leap member => (mem.mp member).2 leap⟩

/-- The last day of 2016, at whose end a leap second was inserted. -/
def lastDayOf2016 : Validity :=
  ⟨(Day.ofCivil? ⟨2016, 12, 31⟩).get rfl, (Day.ofCivil? ⟨2016, 12, 31⟩).get rfl,
    (Priority.ofInt? 30).get rfl⟩

/-- An instant in the last universal second of 2016, or in the leap second after it. -/
def atEndOf2016 (nano : Nat) (h : nano < 2 * nanosPerSecond := by decide) : Instant :=
  ⟨1483228799, nano, by decide, by decide, h, fun _ => by decide⟩

/-- A copy for the day holds up to its last nanosecond. -/
theorem Quay.withValidity_fixed_lastDayOf2016 :
    ∃ copy range, Quay.blank.withValidity (.fixed (.east 0)) lastDayOf2016 = .ok copy ∧
      copy.validBetween = some range ∧ atEndOf2016 999999999 ∈ range := by
  have shown : ((Zone.fixed (.east 0)).rangeOf? lastDayOf2016).isSome := by decide +kernel
  obtain ⟨range, found⟩ := Option.isSome_iff_exists.mp shown
  have copied := withValidity_eq_ok_iff.mpr ⟨range, found, Eq.refl (Quay.blank.copyFor _ range)⟩
  obtain ⟨_, ⟨rfl⟩, -, instants⟩ := (withValidity_fixed _ _ _).2 _ copied
  refine ⟨_, range, copied, rfl, ?_⟩
  apply ((instants (atEndOf2016 999999999)).1 ?_).mpr
  · exact Validity.holdsOn_number_iff.mpr (by decide : lastDayOf2016.last ∈ lastDayOf2016)
  · intro after
    exact absurd after.leap (by decide)

/-- In the leap second it does not hold any more, though clocks show the same day. -/
theorem Quay.not_mem_leap_second_lastDayOf2016 :
    lastDayOf2016.CoversSomeDay ∧ ∃ copy range,
      Quay.blank.withValidity (.fixed (.east 0)) lastDayOf2016 = .ok copy ∧
      copy.validBetween = some range ∧ atEndOf2016 1000000000 ∉ range ∧
      ∃ d ∈ lastDayOf2016, (Zone.fixed (.east 0)).localDay (atEndOf2016 1000000000).second =
        d.number := by
  have found : (Zone.fixed (.east 0)).rangeOf? lastDayOf2016 = some
      ⟨⟨1483142400, 0, by decide, by decide, by decide, by decide⟩, atEndOf2016 999999999⟩ := by
    decide +kernel
  have copied := withValidity_eq_ok_iff.mpr ⟨_, found, Eq.refl (Quay.blank.copyFor _ _)⟩
  exact ⟨by decide, _, _, copied, rfl, by decide, lastDayOf2016.last, by decide, rfl⟩

end QuayTimeline
