import QuayTimeline.Calendar.DayText

/-! # Validity

The days on which one version of a record holds, and its rank among the versions
of the same record. A range includes both its ends. An open range ends on the last
representable day, which makes every comparison one of days; that day as an explicit
end means the same. -/

namespace QuayTimeline

open Text

/-- The rank of a version: the higher one wins the days that two versions share.
It fits 32 bits with sign. -/
@[ext] structure Priority where
  value : Int
  neg_two_pow_le : -2147483648 ≤ value
  lt_two_pow : value < 2147483648
deriving DecidableEq

namespace Priority

def ofInt? (n : Int) : Option Priority :=
  if h : -2147483648 ≤ n ∧ n < 2147483648 then some ⟨n, h.1, h.2⟩ else none

instance : LE Priority := ⟨fun a b => a.value ≤ b.value⟩

instance : LT Priority := ⟨fun a b => a.value < b.value⟩

theorem le_def {a b : Priority} : a ≤ b ↔ a.value ≤ b.value := Iff.rfl

theorem lt_def {a b : Priority} : a < b ↔ a.value < b.value := Iff.rfl

instance (a b : Priority) : Decidable (a ≤ b) := decidable_of_iff _ le_def.symm

instance (a b : Priority) : Decidable (a < b) := decidable_of_iff _ lt_def.symm

def text (p : Priority) : List Char :=
  intDigits p.value

/-- The priority that a text names: an optional sign and digits. -/
def read? (cs : List Char) : Option Priority :=
  readInt? cs >>= ofInt?

instance : ToString Priority := ⟨fun p => String.ofList p.text⟩

end Priority

/-- A range of days with its priority. It covers no day when it ends before it starts. -/
@[ext] structure Validity where
  start : Day
  last : Day
  priority : Priority
deriving DecidableEq

namespace Validity

/-- The validity from a day on, up to an end when there is one. -/
def of (start : Day) (end? : Option Day) (priority : Priority) : Validity :=
  ⟨start, end?.getD Day.last, priority⟩

/-- A validity without an end. -/
def IsIndefinite (v : Validity) : Prop :=
  v.last = Day.last

instance (v : Validity) : Decidable v.IsIndefinite :=
  inferInstanceAs (Decidable (_ = _))

def end? (v : Validity) : Option Day :=
  if v.IsIndefinite then none else some v.last

/-- A day belongs to a validity from its start to its last day. -/
instance : Membership Day Validity :=
  ⟨fun v d => v.start ≤ d ∧ d ≤ v.last⟩

theorem mem_def {d : Day} {v : Validity} : d ∈ v ↔ v.start ≤ d ∧ d ≤ v.last := Iff.rfl

instance (d : Day) (v : Validity) : Decidable (d ∈ v) :=
  inferInstanceAs (Decidable (_ ∧ _))

def CoversSomeDay (v : Validity) : Prop :=
  v.start ≤ v.last

instance (v : Validity) : Decidable v.CoversSomeDay :=
  inferInstanceAs (Decidable (_ ≤ _))

/-- Two ranges of which neither lies before the other. -/
def Overlaps (v w : Validity) : Prop :=
  v.start ≤ w.last ∧ w.start ≤ v.last

instance (v w : Validity) : Decidable (v.Overlaps w) :=
  inferInstanceAs (Decidable (_ ∧ _))

/-- Overlapping validities of one priority. -/
def ConflictsWith (v w : Validity) : Prop :=
  v.priority = w.priority ∧ v.Overlaps w

instance (v w : Validity) : Decidable (v.ConflictsWith w) :=
  inferInstanceAs (Decidable (_ ∧ _))

/-- A range whose ends both lie in the other one. -/
def IsWithin (v w : Validity) : Prop :=
  w.start ≤ v.start ∧ v.last ≤ w.last

instance (v w : Validity) : Decidable (v.IsWithin w) :=
  inferInstanceAs (Decidable (_ ∧ _))

def StartsBefore (v w : Validity) : Prop :=
  v.start < w.start

instance (v w : Validity) : Decidable (v.StartsBefore w) :=
  inferInstanceAs (Decidable (_ < _))

def EndsAfter (v w : Validity) : Prop :=
  w.last < v.last

instance (v w : Validity) : Decidable (v.EndsAfter w) :=
  inferInstanceAs (Decidable (_ < _))

def ifCoversSomeDay? (v : Validity) : Option Validity :=
  if v.CoversSomeDay then some v else none

/-- The validity with its last day moved to the day before a given one, if a day remains. -/
def endingBefore? (v : Validity) (d : Day) : Option Validity := do
  let last ← d.pred?
  { v with last }.ifCoversSomeDay?

/-- The validity with its start moved to the day after a given one, if a day remains. -/
def startingAfter? (v : Validity) (d : Day) : Option Validity := do
  let start ← d.succ?
  { v with start }.ifCoversSomeDay?

/-- A validity in writing: the range, open on the right when it has no end, and the priority. -/
def text (v : Validity) : String :=
  match v.end? with
  | some last => s!"[{v.start}, {last}] priority {v.priority}"
  | none => s!"[{v.start}, ∞) priority {v.priority}"

instance : ToString Validity := ⟨text⟩

end Validity

end QuayTimeline
