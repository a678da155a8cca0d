import QuayTimeline.Proofs.Record.VersionKeys

/-! # When a validity is read

A validity is read when its start and its priority stand under their keys, each as one item, and its
end does too, or its key is absent or has an empty list. Otherwise the error is that of the first of
six checks that fails: the items under the three keys are read before a missing one is missed, and
the range is looked at last. No other key counts. -/

namespace QuayTimeline

/-- The label of the record that an error is about, if it is about one record. -/
def FlatteningError.record? : FlatteningError → Option String
  | missingField record _ | unreadableDate record _ _ | unreadableInteger record _ _
  | endBeforeStart record _ _ | severalValues record _ _ | nonexistentLocalTime record _ =>
    some record
  | samePriorityOverlap _ _ _ | unreachableSplice _ _ _ => none

namespace VersionKeys

variable {α : Type} [KeyedRecord α] {record : α}

/-! ## Six checks -/

/-- What is checked of a record: the item under each of the three keys, that the two required ones
are there, and that the end does not lie before the start. -/
inductive Check where
  | startItem
  | lastItem
  | priorityItem
  | startPresence
  | priorityPresence
  | range
deriving DecidableEq

namespace Check

/-- The checks in the order in which they are made. -/
def inOrder : List Check :=
  [startItem, lastItem, priorityItem, startPresence, priorityPresence, range]

/-- The checks that are made before a check. -/
def earlier (check : Check) : List Check :=
  inOrder.takeWhile (· ≠ check)

/-- A check of a record fails with an error. -/
inductive Fails (record : α) : Check → FlatteningError → Prop
  | startItem {error : FlatteningError}
      (fault : ItemFault Day.read? .unreadableDate record start error) :
      Fails record .startItem error
  | lastItem {error : FlatteningError}
      (fault : ItemFault Day.read? .unreadableDate record last error) :
      Fails record .lastItem error
  | priorityItem {error : FlatteningError}
      (fault : ItemFault Priority.read? .unreadableInteger record priority error) :
      Fails record .priorityItem error
  | startPresence (nothing : HoldsNothing record start) :
      Fails record .startPresence (.missingField (KeyedRecord.label record) start)
  | priorityPresence (nothing : HoldsNothing record priority) :
      Fails record .priorityPresence (.missingField (KeyedRecord.label record) priority)
  | range {first end_ : Day} (starts : HoldsValue Day.read? record start first)
      (ends : HoldsValue Day.read? record last end_) (before : end_ < first) :
      Fails record .range (.endBeforeStart (KeyedRecord.label record) first end_)

/-- A check of a record does not fail. -/
def Passes (record : α) (check : Check) : Prop :=
  ∀ error, ¬ check.Fails record error

/-- A check is the first one to fail, with an error. -/
structure FailsFirst (record : α) (check : Check) (error : FlatteningError) : Prop where
  fails : check.Fails record error
  earlier : ∀ other ∈ check.earlier, other.Passes record

theorem Fails.unique {check : Check} {error other : FlatteningError}
    (fails : check.Fails record error) (fails' : check.Fails record other) : error = other := by
  cases fails with
  | startItem fault => cases fails' with | startItem fault' => exact fault.unique fault'
  | lastItem fault => cases fails' with | lastItem fault' => exact fault.unique fault'
  | priorityItem fault =>
    cases fails' with | priorityItem fault' => exact fault.unique fault'
  | startPresence => cases fails'; rfl
  | priorityPresence => cases fails'; rfl
  | range starts ends =>
    cases fails' with | range starts' ends' => rw [starts.unique starts', ends.unique ends']

theorem mem_earlier_or (check other : Check) :
    check ∈ other.earlier ∨ other ∈ check.earlier ∨ check = other := by
  cases check <;> cases other <;> decide

/-- Only one error is that of the first check to fail. -/
theorem FailsFirst.unique {check check' : Check} {error error' : FlatteningError}
    (fails : check.FailsFirst record error) (fails' : check'.FailsFirst record error') :
    error = error' := by
  rcases mem_earlier_or check check' with before | after | rfl
  · exact absurd fails.fails (fails'.earlier check before error)
  · exact absurd fails'.fails (fails.earlier check' after error')
  · exact fails.fails.unique fails'.fails

theorem passes_startItem {start? : Option Day}
    (read : item? Day.read? .unreadableDate record start = .ok start?) :
    Check.startItem.Passes record := by
  intro error fails
  cases fails with
  | startItem fault => exact not_itemFault_of_ok read fault

theorem passes_lastItem {end? : Option Day}
    (read : item? Day.read? .unreadableDate record last = .ok end?) :
    Check.lastItem.Passes record := by
  intro error fails
  cases fails with
  | lastItem fault => exact not_itemFault_of_ok read fault

theorem passes_priorityItem {priority? : Option Priority}
    (read : item? Priority.read? .unreadableInteger record priority = .ok priority?) :
    Check.priorityItem.Passes record := by
  intro error fails
  cases fails with
  | priorityItem fault => exact not_itemFault_of_ok read fault

theorem passes_startPresence {s : Day} (starts : HoldsValue Day.read? record start s) :
    Check.startPresence.Passes record := by
  intro error fails
  cases fails with
  | startPresence nothing => exact starts.not_holdsNothing nothing

theorem passes_priorityPresence {p : Priority}
    (ranks : HoldsValue Priority.read? record priority p) :
    Check.priorityPresence.Passes record := by
  intro error fails
  cases fails with
  | priorityPresence nothing => exact ranks.not_holdsNothing nothing

end Check

/-! ## All of them -/

open Check

/-- The first check that fails gives the error. -/
theorem exists_failsFirst {error : FlatteningError} (failed : validity record = .error error) :
    ∃ check : Check, check.FailsFirst record error := by
  simp only [validity, bind_eq_error_iff, required_eq_ok_iff, required_eq_error_iff,
    day?, priority?, item?_eq_error_iff] at failed
  -- What was read so far has passed its checks.
  rcases failed with fault | ⟨start?, readStart, fault | ⟨end?, readLast, fault |
    ⟨priority?, readPriority, missing⟩⟩⟩
  · exact ⟨_, .startItem fault, by simp [earlier, inOrder]⟩
  · have startItem := passes_startItem readStart
    exact ⟨_, .lastItem fault, by simp [earlier, inOrder, startItem]⟩
  · have startItem := passes_startItem readStart
    have lastItem := passes_lastItem readLast
    exact ⟨_, .priorityItem fault, by simp [earlier, inOrder, startItem, lastItem]⟩
  have startItem := passes_startItem readStart
  have lastItem := passes_lastItem readLast
  have priorityItem := passes_priorityItem readPriority
  rcases missing with ⟨rfl, rfl⟩ | ⟨s, rfl, missing⟩
  · have nothing := item?_eq_ok_none_iff.mp readStart
    exact ⟨_, .startPresence nothing,
      by simp [earlier, inOrder, startItem, lastItem, priorityItem]⟩
  have starts := item?_eq_ok_some_iff.mp readStart
  have startPresence := passes_startPresence starts
  rcases missing with ⟨rfl, rfl⟩ | ⟨p, rfl, failed⟩
  · have nothing := item?_eq_ok_none_iff.mp readPriority
    exact ⟨_, .priorityPresence nothing,
      by simp [earlier, inOrder, startItem, lastItem, priorityItem, startPresence]⟩
  have priorityPresence := passes_priorityPresence (item?_eq_ok_some_iff.mp readPriority)
  cases end? with
  | none => cases failed
  | some end_ =>
    simp only at failed
    split at failed
    next before =>
      cases failed
      have ends := item?_eq_ok_some_iff.mp readLast
      exact ⟨_, .range starts ends before, by
        simp [earlier, inOrder, startItem, lastItem, priorityItem, startPresence,
          priorityPresence]⟩
    next => cases failed

/-- Each error of a check names the record. -/
theorem Check.Fails.record? {check : Check} {error : FlatteningError}
    (fails : check.Fails record error) : error.record? = some (KeyedRecord.label record) := by
  cases fails with
  | startItem fault => cases fault <;> rfl
  | lastItem fault => cases fault <;> rfl
  | priorityItem fault => cases fault <;> rfl
  | startPresence => rfl
  | priorityPresence => rfl
  | range => rfl

/-- Whatever keeps a validity from being read, the record is named. -/
theorem record?_of_validity {error : FlatteningError} (failed : validity record = .error error) :
    error.record? = some (KeyedRecord.label record) := by
  obtain ⟨check, fails⟩ := exists_failsFirst failed
  exact fails.fails.record?

/-- A validity is read only where all checks pass. -/
theorem passes_of_validity {v : Validity} (read : validity record = .ok v) (check : Check) :
    check.Passes record := by
  obtain ⟨readStart, readPriority, end?, readLast, sameLast, covers⟩ :=
    validity_eq_ok_iff_read.mp read
  rw [day?] at readStart readLast
  rw [priority?] at readPriority
  have starts := item?_eq_ok_some_iff.mp readStart
  cases check with
  | startItem => exact passes_startItem readStart
  | lastItem => exact passes_lastItem readLast
  | priorityItem => exact passes_priorityItem readPriority
  | startPresence => exact passes_startPresence starts
  | priorityPresence => exact passes_priorityPresence (item?_eq_ok_some_iff.mp readPriority)
  | range =>
    intro error fails
    cases fails with
    | range starts' ends before =>
      obtain rfl := starts.unique starts'
      rw [item?_eq_ok_some_iff.mpr ends] at readLast
      cases readLast
      obtain rfl := sameLast
      exact absurd before (Int.not_lt.mpr covers)

/-- A validity is not read just when a check fails, and then the error is that of the first one. -/
theorem validity_eq_error_iff {error : FlatteningError} : validity record = .error error ↔
    ∃ check : Check, check.FailsFirst record error := by
  constructor
  · exact exists_failsFirst
  · intro ⟨check, fails⟩
    cases returned : validity record with
    | ok v => exact absurd fails.fails (passes_of_validity returned check error)
    | error other =>
      obtain ⟨check', fails'⟩ := exists_failsFirst returned
      rw [fails.unique fails']

/-- A validity is read just when its parts are there: the start, the priority, and the end if there
is one, which lies no earlier than the start. The last representable day as an end means none. -/
theorem validity_eq_ok_iff_holdsValue {v : Validity} : validity record = .ok v ↔
    HoldsValue Day.read? record start v.start ∧
      HoldsValue Priority.read? record priority v.priority ∧
      ((v.end? = none ∧ (HoldsNothing record last ∨ HoldsValue Day.read? record last Day.last)) ∨
        ∃ end_, v.end? = some end_ ∧ HoldsValue Day.read? record last end_ ∧ v.start ≤ end_) := by
  simp only [validity_eq_ok_iff_read, day?, priority?, item?_eq_ok_some_iff]
  apply and_congr_right
  intro starts
  apply and_congr_right
  intro ranks
  constructor
  · intro ⟨end?, readLast, sameLast, covers⟩
    cases end? with
    | none =>
      have nothing := item?_eq_ok_none_iff.mp readLast
      exact .inl ⟨Validity.end?_eq_none_iff.mpr sameLast.symm, .inl nothing⟩
    | some end_ =>
      obtain rfl : end_ = v.last := sameLast
      have ends := item?_eq_ok_some_iff.mp readLast
      by_cases indefinite : v.last = Day.last
      · exact .inl ⟨Validity.end?_eq_none_iff.mpr indefinite, .inr (indefinite ▸ ends)⟩
      · exact .inr ⟨v.last, Validity.end?_eq_some_iff.mpr ⟨indefinite, rfl⟩, ends, covers⟩
  · rintro (⟨noEnd, noOtherEnd⟩ | ⟨end_, isEnd, ends, covers⟩)
    · have indefinite := Validity.end?_eq_none_iff.mp noEnd
      cases noOtherEnd with
      | inl nothing =>
        exact ⟨none, item?_eq_ok_none_iff.mpr nothing, indefinite.symm, indefinite.coversSomeDay⟩
      | inr ends =>
        exact ⟨some Day.last, item?_eq_ok_some_iff.mpr ends, indefinite.symm,
          indefinite.coversSomeDay⟩
    · obtain ⟨-, rfl⟩ := Validity.end?_eq_some_iff.mp isEnd
      exact ⟨some v.last, item?_eq_ok_some_iff.mpr ends, rfl, covers⟩

section Agreement

variable {β : Type} [KeyedRecord β] {other : β}

/-- Two records hold the same under a key, or nothing, be it for an absent key or an empty list. -/
inductive AgreeAt (record : α) (other : β) (key : String) : Prop
  | value (same : KeyedRecord.value? other key = KeyedRecord.value? record key)
  | nothing (here : HoldsNothing record key) (there : HoldsNothing other key)

theorem item?_congr {γ : Type} {read? : List Char → Option γ}
    {unreadable : String → String → String → FlatteningError} {key : String}
    (label : KeyedRecord.label other = KeyedRecord.label record)
    (agree : AgreeAt record other key) :
    item? read? unreadable other key = item? read? unreadable record key := by
  cases agree with
  | value same => rw [item?, item?, single?, single?, same, label]
  | nothing here there =>
    rw [item?_eq_ok_none_iff.mpr here, item?_eq_ok_none_iff.mpr there]

/-- Only the label and the three keys count. -/
theorem validity_congr (label : KeyedRecord.label other = KeyedRecord.label record)
    (agree : ∀ key ∈ [start, last, priority], AgreeAt record other key) :
    validity other = validity record := by
  simp only [List.forall_mem_cons] at agree
  obtain ⟨starts, ends, ranks, -⟩ := agree
  simp only [validity, day?, priority?, item?_congr label starts, item?_congr label ends,
    item?_congr label ranks, required, label]

end Agreement

/-- A validity is read just when start and priority are there, and the end is too and does not lie
before the start, or its key is absent or has an empty list. It then covers some day. Otherwise the
error is that of the first check to fail. Records of one label that agree under the three keys give
the same, of whatever kind they are, and an empty list counts there as an absent key. -/
theorem validity_by_checks (record : α) :
    (∀ v, validity record = .ok v ↔
      HoldsValue Day.read? record start v.start ∧
      HoldsValue Priority.read? record priority v.priority ∧
      ((v.end? = none ∧ (KeyedRecord.value? record last = none ∨
          KeyedRecord.value? record last = some [] ∨
          HoldsValue Day.read? record last Day.last)) ∨
        ∃ end_, v.end? = some end_ ∧ HoldsValue Day.read? record last end_ ∧ v.start ≤ end_)) ∧
    (∀ v, validity record = .ok v → v.CoversSomeDay) ∧
    (∀ error, validity record = .error error ↔ ∃ check : Check, check.FailsFirst record error) ∧
    ∀ {β : Type} [KeyedRecord β] (other : β),
      KeyedRecord.label other = KeyedRecord.label record →
      (∀ key ∈ [start, last, priority], AgreeAt record other key) →
      validity other = validity record := by
  refine ⟨?_, ?_, ?_, ?_⟩
  · intro v
    rw [validity_eq_ok_iff_holdsValue, holdsNothing_iff, or_assoc]
  · intro v read
    exact coversSomeDay_of_validity read
  · intro error
    exact validity_eq_error_iff
  · intro β _ other label agree
    exact validity_congr label agree

/-- A quay without a start, whose end is an empty list, and whose priority is given twice. -/
def unstartedQuay : Quay :=
  { Quay.blank with keyValues := .ofList [(last, []), (priority, ["10", "20"])] }

/-- The same quay without the key of its end. -/
def openUnstartedQuay : Quay :=
  { Quay.blank with keyValues := .ofList [(priority, ["10", "20"])] }

/-- The missing start does not hide that there are two priorities. The empty list is no end, just as
an absent key is none. -/
theorem validity_by_checks_unstartedQuay :
    validity unstartedQuay = .error (.severalValues "unidentified quay" "priority" 2) ∧
      KeyedRecord.value? openUnstartedQuay last ≠ KeyedRecord.value? unstartedQuay last ∧
      validity openUnstartedQuay = validity unstartedQuay := by
  obtain ⟨-, -, errors, congr⟩ := validity_by_checks unstartedQuay
  have noStart : HoldsNothing unstartedQuay start := .absent (by decide)
  have noEnd : HoldsNothing unstartedQuay last := .empty (by decide)
  refine ⟨(errors _).mpr ?_, by decide, congr openUnstartedQuay rfl ?_⟩
  · have present : KeyedRecord.value? unstartedQuay priority = some ["10", "20"] := by decide
    refine ⟨.priorityItem, .priorityItem (.several present (by decide)), ?_⟩
    have startPasses : Check.startItem.Passes unstartedQuay :=
      passes_startItem (item?_eq_ok_none_iff.mpr noStart)
    have lastPasses : Check.lastItem.Passes unstartedQuay :=
      passes_lastItem (item?_eq_ok_none_iff.mpr noEnd)
    simp [earlier, inOrder, startPasses, lastPasses]
  · simp only [List.forall_mem_cons]
    refine ⟨.value (by decide), .nothing noEnd (.absent (by decide)), .value (by decide), ?_⟩
    intro key member
    cases member

end VersionKeys

end QuayTimeline
