import QuayTimeline.Calendar.ZoneTable
import QuayTimeline.Proofs.Calendar.Zone
import QuayTimeline.Proofs.Flattening.ByDay

/-! # The instants of flattened quays

The days of two quays of one code are apart; the instants between which they hold are apart unless
clocks go back from a day of the later quay to one of the earlier. Then, and only then, the later
quay starts to hold before the earlier one ends. -/

namespace QuayTimeline

open Timeline

def Instant.nanos (t : Instant) : Int :=
  t.second * nanosPerSecond + t.nano

/-- An instant lies in a range from its first to its last one. -/
instance : Membership Instant ValidBetween :=
  ⟨fun range t => range.fromDate ≤ t ∧ ∀ toDate ∈ range.toDate, t ≤ toDate⟩

instance (t : Instant) (range : ValidBetween) : Decidable (t ∈ range) :=
  inferInstanceAs (Decidable (_ ∧ _))

theorem Instant.le_trans {s t u : Instant} (first : s ≤ t) (second : t ≤ u) : s ≤ u := by
  cases first with
  | inl lt => cases second <;> exact .inl (by omega)
  | inr same =>
    cases second with
    | inl lt => exact .inl (by omega)
    | inr other => exact .inr (by omega)

theorem Instant.not_le_of_lt {s t : Instant} (lt : s < t) : ¬ t ≤ s := by
  intro le
  cases lt <;> cases le <;> omega

/-- A range that ends before another one starts shares no instant with it. -/
theorem ValidBetween.disjoint_of_lt {range later : ValidBetween} {toDate : Instant}
    (ends : range.toDate = some toDate) (lt : toDate < later.fromDate) (t : Instant) :
    ¬ (t ∈ range ∧ t ∈ later) := fun ⟨member, memberLater⟩ =>
  Instant.not_le_of_lt lt (Instant.le_trans memberLater.1 (member.2 toDate ends))

namespace Zone

variable {zone : Zone} {v w : Validity} {range later : ValidBetween}

theorem startOfDay?_of_rangeOf? (found : zone.rangeOf? v = some range) :
    zone.startOfDay? v.start = some range.fromDate := by
  obtain ⟨fromDate, starts, found⟩ := Option.bind_eq_some_iff.mp found
  split at found
  next =>
    obtain ⟨toDate, -, ⟨rfl⟩⟩ := Option.bind_eq_some_iff.mp found
    exact starts
  next =>
    cases found
    exact starts

theorem endOfDay?_of_rangeOf? (found : zone.rangeOf? v = some range)
    (closed : ¬ v.IsIndefinite) :
    ∃ toDate, zone.endOfDay? v.last = some toDate ∧ range.toDate = some toDate := by
  obtain ⟨fromDate, -, found⟩ := Option.bind_eq_some_iff.mp found
  rw [Validity.end?, if_neg closed] at found
  obtain ⟨toDate, ends, ⟨rfl⟩⟩ := Option.bind_eq_some_iff.mp found
  exact ⟨toDate, ends, rfl⟩

/-- How the instants of a validity end before those of a later one: just when clocks do not go back
from the start of the later to the end of the earlier. On neighbouring days nothing comes in between
then, unless clocks are changed right after the end. -/
structure Separates (zone : Zone) (v w : Validity) (toDate fromDate : Instant) : Prop where
  lt_iff : toDate < fromDate ↔ ¬ zone.GoesBack w.start v.last
  lt_of_keepsDays : zone.KeepsDays → toDate < fromDate
  next_iff : w.start.number = v.last.number + 1 →
    (toDate.nanos + 1 = fromDate.nanos ↔ ¬ zone.GoesBack w.start v.last ∧
      zone.offsetAt (toDate.second + 1) = zone.offsetAt toDate.second)
  next_of_isSpaced : zone.IsSpaced → w.start.number = v.last.number + 1 →
    (toDate.nanos + 1 = fromDate.nanos ↔ toDate < fromDate)

theorem nanos_succ_eq_iff {d e : Day} {stop start : Instant} (ends : zone.Ends d stop)
    (starts : zone.Starts e start) :
    stop.nanos + 1 = start.nanos ↔ stop.second + 1 = start.second := by
  simp only [Instant.nanos, ends.nano, starts.nano, nanosPerSecond]
  omega

theorem separates (ordered : zone.InOrder) {toDate fromDate : Instant} (before : v.last < w.start)
    (ends : zone.Ends v.last toDate) (starts : zone.Starts w.start fromDate) :
    zone.Separates v w toDate fromDate where
  lt_iff := ends.lt_iff starts before
  lt_of_keepsDays keeps := (ends.lt_iff starts before).mpr (not_goesBack ordered keeps before)
  next_iff next := (nanos_succ_eq_iff ends starts).trans (ends.succ_eq_iff starts next)
  next_of_isSpaced spaced next := by
    rw [nanos_succ_eq_iff ends starts, ends.succ_eq_iff starts next, ends.lt_iff starts before]
    exact and_iff_left (spaced.offsetAt_succ_eq ends starts next)

end Zone

/-- A quay and a later one of the same code, in a zone: both say on which days and between which
instants they hold, the earlier one holds up to some instant, and zone and days decide whether that
comes before the first instant of the later one. If so, no instant lies in both ranges. -/
def Quay.IsFollowedBy (zone : Zone) (q r : Quay) : Prop :=
  ∃ v w range later toDate,
    VersionKeys.validity q = .ok v ∧ VersionKeys.validity r = .ok w ∧ v.last < w.start ∧
    q.validBetween = some range ∧ r.validBetween = some later ∧ range.toDate = some toDate ∧
    zone.Separates v w toDate later.fromDate ∧
    (toDate < later.fromDate → ∀ t, ¬ (t ∈ range ∧ t ∈ later))

theorem Quay.isFollowedBy_copyFor {zone : Zone} (ordered : zone.InOrder) {p s : Quay}
    {v w : Validity} {range later : ValidBetween} (coversV : v.CoversSomeDay)
    (coversW : w.CoversSomeDay) (before : v.last < w.start) (found : zone.rangeOf? v = some range)
    (foundLater : zone.rangeOf? w = some later) :
    (p.copyFor v range).IsFollowedBy zone (s.copyFor w later) := by
  have closed : ¬ v.IsIndefinite := by
    intro indefinite
    have atMost := w.start.le_lastDayNumber
    rw [Day.lt_def, indefinite] at before
    exact Int.not_lt.mpr atMost before
  obtain ⟨toDate, ends, hasEnd⟩ := Zone.endOfDay?_of_rangeOf? found closed
  have separates := Zone.separates ordered before (Zone.ends_of_endOfDay? ordered ends)
    (Zone.starts_of_startOfDay? ordered (Zone.startOfDay?_of_rangeOf? foundLater))
  exact ⟨v, w, range, later, toDate, p.validity_copyFor v range coversV,
    s.validity_copyFor w later coversW, before, rfl, rfl, hasEnd, separates,
    ValidBetween.disjoint_of_lt hasEnd⟩

/-- Of two flattened quays of one code, the earlier one ends before the later one starts, unless
clocks go back from the first day of the later to the last day of the earlier. -/
theorem StopPlace.pairwise_isFollowedBy {rules : FlatteningRules} {zone : Zone}
    {place result : StopPlace} (ordered : zone.InOrder)
    (accepted : ∃ q ∈ place.quays, rules.acceptsSource q.sourceType? = true)
    (flattened : place.flatten rules zone = .ok result) :
    result.quays.Pairwise fun q r => q.publicCode = r.publicCode → q.IsFollowedBy zone r := by
  obtain ⟨fragments, quays, resolved, copied, rfl⟩ :=
    (flatten_eq_ok_iff (List.any_eq_true.mpr accepted)).mp flattened
  have inOrder := inOrder_fragmentsOf resolved
  refine pairwise_of_forall₂ (forall₂_isVersion resolved copied) ?_
    (inOrder.ordered.imp_of_mem fun memberE memberF before =>
      And.intro (inOrder.covers _ memberE) (And.intro (inOrder.covers _ memberF) before))
  rintro e f q r ⟨copiedE, versionE⟩ ⟨copiedF, versionF⟩ ⟨coversE, coversF, before⟩ sameCode
  rw [versionE.publicCode, versionF.publicCode, Option.some.injEq] at sameCode
  obtain ⟨range, found, rfl⟩ := Quay.withValidity_eq_ok_iff.mp copiedE
  obtain ⟨later, foundLater, rfl⟩ := Quay.withValidity_eq_ok_iff.mp copiedF
  rw [sameCode] at before
  exact Quay.isFollowedBy_copyFor ordered coversE coversF
    (before.resolve_left (Identifier.lt_irrefl _)).2 found foundLater

/-! ## A night in November -/

/-- The days from the first of January to the sixth of November 2010. -/
def beforeNovember7 : Validity :=
  ⟨⟨14610, by decide, by decide⟩, ⟨14919, by decide, by decide⟩, (Priority.ofInt? 10).get rfl⟩

/-- All days from the seventh of November 2010 on. -/
def fromNovember7 : Validity :=
  ⟨⟨14920, by decide, by decide⟩, Day.last, (Priority.ofInt? 20).get rfl⟩

/-- A stop place with a quay of 2010, and a version of it that takes over on the seventh of
November. -/
def novemberPlace : StopPlace :=
  { StopPlace.blank with quays :=
      [registeredQuay "old" "10" "2010-01-01", registeredQuay "new" "20" "2010-11-07"] }

set_option maxRecDepth 2000 in
theorem fragmentsOf_novemberPlace : fragmentsOf .default novemberPlace.quays =
    .ok [(⟨"H1", by decide⟩, ⟨⟨registeredQuay "old" "10" "2010-01-01", 0⟩, beforeNovember7⟩),
      (⟨"H1", by decide⟩, ⟨⟨registeredQuay "new" "20" "2010-11-07", 1⟩, fromNovember7⟩)] := by
  cbv

theorem StopPlace.flatten_novemberPlace {zone : Zone} {range later : ValidBetween}
    (found : zone.rangeOf? beforeNovember7 = some range)
    (foundLater : zone.rangeOf? fromNovember7 = some later) :
    novemberPlace.flatten .default zone = .ok { novemberPlace with quays :=
      [(registeredQuay "old" "10" "2010-01-01").copyFor beforeNovember7 range,
        (registeredQuay "new" "20" "2010-11-07").copyFor fromNovember7 later] } := by
  refine (flatten_eq_ok_iff (by decide)).mpr ⟨_, _, fragmentsOf_novemberPlace, ?_, rfl⟩
  exact mapM_eq_ok_iff.mpr (.cons (Quay.withValidity_eq_ok_iff.mpr ⟨range, found, rfl⟩)
    (.cons (Quay.withValidity_eq_ok_iff.mpr ⟨later, foundLater, rfl⟩) .nil))

theorem StopPlace.exists_flatten_novemberPlace {zone : Zone}
    (shown : ∀ v ∈ [beforeNovember7, fromNovember7], (zone.rangeOf? v).isSome) :
    ∃ range later, zone.rangeOf? beforeNovember7 = some range ∧
      zone.rangeOf? fromNovember7 = some later ∧
      novemberPlace.flatten .default zone = .ok { novemberPlace with quays :=
        [(registeredQuay "old" "10" "2010-01-01").copyFor beforeNovember7 range,
          (registeredQuay "new" "20" "2010-11-07").copyFor fromNovember7 later] } := by
  simp only [List.forall_mem_cons, Option.isSome_iff_exists] at shown
  obtain ⟨⟨range, found⟩, ⟨later, foundLater⟩, -⟩ := shown
  exact ⟨range, later, found, foundLater, flatten_novemberPlace found foundLater⟩

/-- Two quays of one code on neighbouring days, with the instants between which they hold. -/
structure Quay.IsNeighbourOf (q r : Quay) (range later : ValidBetween) (toDate : Instant) :
    Prop where
  sameCode : q.publicCode = r.publicCode
  nextDay : ∃ v w, VersionKeys.validity q = .ok v ∧ VersionKeys.validity r = .ok w ∧
    w.start.number = v.last.number + 1
  hasRange : q.validBetween = some range
  hasLater : r.validBetween = some later
  hasEnd : range.toDate = some toDate

theorem Quay.isNeighbourOf_copyFor {range later : ValidBetween} {toDate : Instant}
    (hasEnd : range.toDate = some toDate) :
    ((registeredQuay "old" "10" "2010-01-01").copyFor beforeNovember7 range).IsNeighbourOf
      ((registeredQuay "new" "20" "2010-11-07").copyFor fromNovember7 later) range later
        toDate where
  sameCode := rfl
  nextDay := ⟨_, _, validity_copyFor _ _ _ (by decide), validity_copyFor _ _ _ (by decide), rfl⟩
  hasRange := rfl
  hasLater := rfl
  hasEnd := hasEnd

/-- In Chile neighbours are a nanosecond apart, as clocks there go back from midnight to the last
hour of the day before, and never twice in two days. -/
theorem StopPlace.pairwise_isFollowedBy_novemberPlace :
    ZoneTable.santiago.InOrder ∧
    (∃ q ∈ novemberPlace.quays, FlatteningRules.default.acceptsSource q.sourceType? = true) ∧
    ∃ q r range later toDate,
      novemberPlace.flatten .default ZoneTable.santiago =
        .ok { novemberPlace with quays := [q, r] } ∧
      q.IsNeighbourOf r range later toDate ∧ toDate.nanos + 1 = later.fromDate.nanos := by
  have ordered : ZoneTable.santiago.InOrder := by decide +kernel
  have accepted : ∃ q ∈ novemberPlace.quays,
      FlatteningRules.default.acceptsSource q.sourceType? = true :=
    ⟨_, List.mem_cons_self, by decide⟩
  have shown : ∀ v ∈ [beforeNovember7, fromNovember7],
      (ZoneTable.santiago.rangeOf? v).isSome := by decide +kernel
  obtain ⟨range, later, -, -, flattened⟩ := exists_flatten_novemberPlace shown
  have follows := pairwise_isFollowedBy ordered accepted flattened
  obtain ⟨v, w, _, _, toDate, validity, validityLater, -, ⟨rfl⟩, ⟨rfl⟩, hasEnd, separates, -⟩ :=
    List.rel_of_pairwise_cons follows List.mem_cons_self rfl
  have neighbour : Quay.IsNeighbourOf _ _ range later toDate := Quay.isNeighbourOf_copyFor hasEnd
  obtain ⟨_, _, readV, readW, next⟩ := neighbour.nextDay
  obtain rfl := Except.ok.inj (validity.symm.trans readV)
  obtain rfl := Except.ok.inj (validityLater.symm.trans readW)
  refine ⟨ordered, accepted, _, _, _, _, toDate, flattened, neighbour, ?_⟩
  exact (separates.next_of_isSpaced (by decide +kernel) next).mpr
    (separates.lt_of_keepsDays (by decide +kernel))

/-- A zone whose clocks are put back by an hour at midnight, and forward to midnight again when half
an hour has passed. -/
def twiceInOneNight : Zone :=
  ⟨ZoneTable.universal.initial, [⟨ZoneTable.utc 2010 11 7 0 0, .east (-3600)⟩,
    ⟨ZoneTable.utc 2010 11 7 0 30, .east (-1800)⟩]⟩

/-- Neighbours need not be a nanosecond apart. In Newfoundland clocks went back over the midnight
between them, so both hold for an hour; and clocks that are changed twice in a night leave half an
hour between them. The latter rests on the look-up of all instants at which clocks show a time: one
that tries only the offsets on both sides of the nearest change finds no such midnight. -/
theorem StopPlace.not_next_novemberPlace :
    (ZoneTable.stJohns.InOrder ∧ ∃ q r range later toDate,
      novemberPlace.flatten .default ZoneTable.stJohns =
        .ok { novemberPlace with quays := [q, r] } ∧
      q.IsNeighbourOf r range later toDate ∧ later.fromDate < toDate ∧
      later.fromDate ∈ range ∧ later.fromDate ∈ later) ∧
    (twiceInOneNight.InOrder ∧ ∃ q r range later toDate,
      novemberPlace.flatten .default twiceInOneNight =
        .ok { novemberPlace with quays := [q, r] } ∧
      q.IsNeighbourOf r range later toDate ∧ toDate < later.fromDate ∧
      toDate.nanos + 1 ≠ later.fromDate.nanos) := by
  constructor
  · have found : ZoneTable.stJohns.rangeOf? beforeNovember7 = some
        ⟨⟨1262316600, 0, by decide, by decide, by decide, by decide⟩,
          some ⟨1289100599, 999999999, by decide, by decide, by decide, by decide⟩⟩ := by
      decide +kernel
    have foundLater : ZoneTable.stJohns.rangeOf? fromNovember7 = some
        ⟨⟨1289097000, 0, by decide, by decide, by decide, by decide⟩, none⟩ := by
      decide +kernel
    exact ⟨by decide +kernel, _, _, _, _, _, flatten_novemberPlace found foundLater,
      Quay.isNeighbourOf_copyFor rfl, by decide, by decide, by decide⟩
  · have found : twiceInOneNight.rangeOf? beforeNovember7 = some
        ⟨⟨1262304000, 0, by decide, by decide, by decide, by decide⟩,
          some ⟨1289087999, 999999999, by decide, by decide, by decide, by decide⟩⟩ := by
      decide +kernel
    have foundLater : twiceInOneNight.rangeOf? fromNovember7 = some
        ⟨⟨1289089800, 0, by decide, by decide, by decide, by decide⟩, none⟩ := by
      decide +kernel
    exact ⟨by decide +kernel, _, _, _, _, _, flatten_novemberPlace found foundLater,
      Quay.isNeighbourOf_copyFor rfl, by decide, by decide⟩

end QuayTimeline
