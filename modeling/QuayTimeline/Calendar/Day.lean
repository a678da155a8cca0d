/-! # Days of the calendar

A day is known by its distance from 1 January 1970. There is a first and a last
representable day, and the type holds nothing beyond them, so the day before the
first and the day after the last do not exist. -/

namespace QuayTimeline

/-- The number of the first representable day, 1 January of the year -262143. -/
def firstDayNumber : Int := -96465292

/-- The number of the last representable day, 31 December of the year 262142. -/
def lastDayNumber : Int := 95026236

/-- A representable day, numbered from 1 January 1970. -/
@[ext] structure Day where
  number : Int
  firstDayNumber_le : firstDayNumber ≤ number
  le_lastDayNumber : number ≤ lastDayNumber
deriving DecidableEq

namespace Day

instance : LE Day := ⟨fun a b => a.number ≤ b.number⟩

instance : LT Day := ⟨fun a b => a.number < b.number⟩

theorem le_def {a b : Day} : a ≤ b ↔ a.number ≤ b.number := Iff.rfl

theorem lt_def {a b : Day} : a < b ↔ a.number < b.number := Iff.rfl

instance (a b : Day) : Decidable (a ≤ b) := decidable_of_iff _ le_def.symm

instance (a b : Day) : Decidable (a < b) := decidable_of_iff _ lt_def.symm

def first : Day := ⟨firstDayNumber, by decide, by decide⟩

def last : Day := ⟨lastDayNumber, by decide, by decide⟩

instance : Inhabited Day := ⟨first⟩

/-- The day with a number, when it is representable. -/
def ofNumber? (n : Int) : Option Day :=
  if h : firstDayNumber ≤ n ∧ n ≤ lastDayNumber then some ⟨n, h.1, h.2⟩ else none

/-- The day before; the first day has none. -/
def pred? (d : Day) : Option Day :=
  ofNumber? (d.number - 1)

/-- The day after; the last day has none. -/
def succ? (d : Day) : Option Day :=
  ofNumber? (d.number + 1)

theorem ofNumber?_eq_some_iff {n : Int} {d : Day} : ofNumber? n = some d ↔ d.number = n := by
  constructor
  · intro h
    simp only [ofNumber?] at h
    split at h
    · cases h; rfl
    · contradiction
  · intro h
    subst h
    simp [ofNumber?, d.firstDayNumber_le, d.le_lastDayNumber]

theorem ofNumber?_number (d : Day) : ofNumber? d.number = some d :=
  ofNumber?_eq_some_iff.mpr rfl

theorem le_last (d : Day) : d ≤ last := d.le_lastDayNumber

end Day

end QuayTimeline
