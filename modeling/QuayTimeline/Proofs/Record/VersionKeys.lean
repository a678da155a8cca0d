import Mathlib.Tactic.MkIffOfInductiveProp
import QuayTimeline.Proofs.Calendar.DayText
import QuayTimeline.Proofs.Outcome
import QuayTimeline.Record.VersionKeys

/-! # Validity in key values

The item under a key is read alike for all three keys. A validity that is read covers some day, and
one that was written under the three keys is read back, an absent end as the last representable day.
-/

namespace QuayTimeline

namespace Validity

theorem end?_eq_none_iff {v : Validity} : v.end? = none ↔ v.IsIndefinite := by
  simp [end?]

theorem end?_eq_some_iff {v : Validity} {d : Day} :
    v.end? = some d ↔ ¬ v.IsIndefinite ∧ v.last = d := by
  simp [end?]

/-- An absent end stands for the last representable day. -/
theorem getD_end? (v : Validity) : v.end?.getD Day.last = v.last := by
  rw [end?]
  split
  next indefinite => exact indefinite.symm
  next => rfl

theorem IsIndefinite.coversSomeDay {v : Validity} (indefinite : v.IsIndefinite) :
    v.CoversSomeDay :=
  Int.le_trans (Day.le_last v.start) (Int.le_of_eq (congrArg Day.number indefinite.symm))

end Validity

/-- The items under a key, none when the key is absent. -/
def KeyedRecord.items {α : Type} [KeyedRecord α] (record : α) (key : String) : List String :=
  (KeyedRecord.value? record key).getD []

namespace VersionKeys

variable {α : Type} [KeyedRecord α] {record : α}

/-! ## The item under a key -/

section Item

variable {β : Type} {read? : List Char → Option β}
  {unreadable : String → String → String → FlatteningError} {key : String}

/-- No item stands under a key: the key is absent, or its list is empty. -/
@[mk_iff] inductive HoldsNothing (record : α) (key : String) : Prop
  | absent (noKey : KeyedRecord.value? record key = none)
  | empty (noItem : KeyedRecord.value? record key = some [])

/-- Exactly one item stands under a key, and it reads as a value. -/
def HoldsValue (read? : List Char → Option β) (record : α) (key : String) (value : β) : Prop :=
  ∃ item, KeyedRecord.value? record key = some [item] ∧ read? item.toList = some value

/-- What keeps the item under a key from being read. -/
@[mk_iff] inductive ItemFault (read? : List Char → Option β)
    (unreadable : String → String → String → FlatteningError) (record : α) (key : String) :
    FlatteningError → Prop
  | several {items : List String} (present : KeyedRecord.value? record key = some items)
      (more : 1 < items.length) :
      ItemFault read? unreadable record key
        (.severalValues (KeyedRecord.label record) key items.length)
  | unreadable {item : String} (present : KeyedRecord.value? record key = some [item])
      (noValue : read? item.toList = none) :
      ItemFault read? unreadable record key (unreadable (KeyedRecord.label record) key item)

theorem HoldsValue.unique {value other : β} (first : HoldsValue read? record key value)
    (second : HoldsValue read? record key other) : value = other := by
  obtain ⟨item, present, read⟩ := first
  obtain ⟨item', present', read'⟩ := second
  cases present.symm.trans present'
  exact Option.some.inj (read.symm.trans read')

theorem HoldsValue.not_holdsNothing {value : β} (holds : HoldsValue read? record key value) :
    ¬ HoldsNothing record key := by
  obtain ⟨item, present, -⟩ := holds
  intro nothing
  cases nothing with
  | absent noKey => cases present.symm.trans noKey
  | empty noItem => cases present.symm.trans noItem

/-- What is read of what a key may hold. -/
theorem item?_eq_match : item? read? unreadable record key =
    match KeyedRecord.value? record key with
    | none => .ok none
    | some [] => .ok none
    | some [item] =>
      match read? item.toList with
      | some value => .ok (some value)
      | none => .error (unreadable (KeyedRecord.label record) key item)
    | some items => .error (.severalValues (KeyedRecord.label record) key items.length) := by
  rw [item?, single?]
  match KeyedRecord.value? record key with
  | none => rfl
  | some [] => rfl
  | some [item] => cases read : read? item.toList <;> simp only [ok_bind, read] <;> rfl
  | some (_ :: _ :: _) => rfl

theorem item?_eq_ok_none_iff :
    item? read? unreadable record key = .ok none ↔ HoldsNothing record key := by
  rw [item?_eq_match, holdsNothing_iff]
  match KeyedRecord.value? record key with
  | none => simp
  | some [] => simp
  | some [item] => cases read : read? item.toList <;> simp [read]
  | some (_ :: _ :: _) => simp

theorem item?_eq_ok_some_iff {value : β} :
    item? read? unreadable record key = .ok (some value) ↔ HoldsValue read? record key value := by
  rw [item?_eq_match, HoldsValue]
  match KeyedRecord.value? record key with
  | none => simp
  | some [] => simp
  | some [item] => cases read : read? item.toList <;> simp [read]
  | some (_ :: _ :: _) => simp

theorem item?_eq_error_iff {error : FlatteningError} :
    item? read? unreadable record key = .error error ↔
      ItemFault read? unreadable record key error := by
  rw [item?_eq_match, itemFault_iff]
  match KeyedRecord.value? record key with
  | none => simp
  | some [] => simp
  | some [item] => cases read : read? item.toList <;> simp [read, eq_comm]
  | some (_ :: _ :: _) => simp [eq_comm]

theorem ItemFault.unique {error other : FlatteningError}
    (fault : ItemFault read? unreadable record key error)
    (fault' : ItemFault read? unreadable record key other) : error = other :=
  Except.error.inj ((item?_eq_error_iff.mpr fault).symm.trans (item?_eq_error_iff.mpr fault'))

theorem not_itemFault_of_ok {value? : Option β}
    (read : item? read? unreadable record key = .ok value?) {error : FlatteningError} :
    ¬ ItemFault read? unreadable record key error := by
  intro fault
  rw [item?_eq_error_iff.mpr fault] at read
  cases read

end Item

/-! ## The parts of a validity -/

theorem required_eq_ok_iff {β : Type} {key : String} {value? : Option β} {value : β} :
    required record key value? = .ok value ↔ value? = some value := by
  cases value? <;> simp [required]

theorem required_eq_error_iff {β : Type} {key : String} {value? : Option β}
    {error : FlatteningError} : required record key value? = .error error ↔
      value? = none ∧ error = .missingField (KeyedRecord.label record) key := by
  cases value? <;> simp [required, eq_comm]

/-- What is read when a validity is. An absent end is the last representable day. -/
theorem validity_eq_ok_iff_read {v : Validity} : validity record = .ok v ↔
    day? record start = .ok (some v.start) ∧ priority? record priority = .ok (some v.priority) ∧
      ∃ end?, day? record last = .ok end? ∧ end?.getD Day.last = v.last ∧ v.CoversSomeDay := by
  constructor
  · intro read
    simp only [validity, bind_eq_ok_iff, required_eq_ok_iff] at read
    obtain ⟨_, readStart, end?, readLast, _, readPriority, first, rfl, p, rfl, returned⟩ := read
    cases end? with
    | none =>
      cases returned
      exact ⟨readStart, readPriority, none, readLast, rfl, first.le_last⟩
    | some last =>
      simp only at returned
      split at returned
      next => cases returned
      next notBefore =>
        cases returned
        exact ⟨readStart, readPriority, some last, readLast, rfl, Int.not_lt.mp notBefore⟩
  · intro ⟨readStart, readPriority, end?, readLast, sameLast, covers⟩
    simp only [validity, readStart, readLast, readPriority, ok_bind, required]
    cases end? with
    | none =>
      have same : Validity.of v.start none v.priority = v := Validity.ext rfl sameLast rfl
      exact congrArg Except.ok same
    | some last =>
      obtain rfl : last = v.last := sameLast
      have notBefore : ¬ v.last < v.start := Int.not_lt.mpr covers
      simp only [notBefore, if_false]
      rfl

theorem coversSomeDay_of_validity {v : Validity} (read : validity record = .ok v) :
    v.CoversSomeDay := by
  obtain ⟨-, -, -, -, -, covers⟩ := validity_eq_ok_iff_read.mp read
  exact covers

/-- A validity is read back from its parts under the three keys. -/
theorem validity_eq_ok {v : Validity} (covers : v.CoversSomeDay)
    (starts : KeyedRecord.value? record start = some [toString v.start])
    (ends : KeyedRecord.value? record last = v.end?.map fun last => [toString last])
    (ranks : KeyedRecord.value? record priority = some [toString v.priority]) :
    validity record = .ok v := by
  have readDay (d : Day) : Day.read? (toString d).toList = some d :=
    (congrArg Day.read? String.toList_ofList).trans d.read?_text
  have readPriority : Priority.read? (toString v.priority).toList = some v.priority :=
    (congrArg Priority.read? String.toList_ofList).trans v.priority.read?_text
  have lastRead : day? record last = .ok v.end? := by
    cases given : v.end? with
    | none => exact item?_eq_ok_none_iff.mpr (.absent (by rw [ends, given]; rfl))
    | some end_ => exact item?_eq_ok_some_iff.mpr ⟨_, by rw [ends, given]; rfl, readDay end_⟩
  apply validity_eq_ok_iff_read.mpr
  exact ⟨item?_eq_ok_some_iff.mpr ⟨_, starts, readDay v.start⟩,
    item?_eq_ok_some_iff.mpr ⟨_, ranks, readPriority⟩, v.end?, lastRead, v.getD_end?, covers⟩

end VersionKeys

end QuayTimeline
