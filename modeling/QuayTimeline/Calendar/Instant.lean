import QuayTimeline.Calendar.Civil

/-! # Instants

A point in time of the universal clock, in nanoseconds. The day it falls on is
representable. A leap second is the second after `23:59:59` of its minute; it is
kept as that second's number with a thousand million nanoseconds or more. -/

namespace QuayTimeline

def secondsPerDay : Int := 86400

def nanosPerSecond : Nat := 1000000000

/-- The number of the first representable second, counted from 1 January 1970. -/
def firstSecond : Int := firstDayNumber * secondsPerDay

/-- The number of the last representable second. -/
def lastSecond : Int := lastDayNumber * secondsPerDay + 86399

/-- An instant: a representable second and the nanoseconds passed in it. -/
@[ext] structure Instant where
  second : Int
  nano : Nat
  firstSecond_le : firstSecond ≤ second
  le_lastSecond : second ≤ lastSecond
  nano_lt : nano < 2 * nanosPerSecond
  leap : nanosPerSecond ≤ nano → second % 60 = 59
deriving DecidableEq

namespace Instant

/-- Instants are ordered by second and within a second by nanosecond. -/
instance : LT Instant :=
  ⟨fun a b => a.second < b.second ∨ (a.second = b.second ∧ a.nano < b.nano)⟩

instance : LE Instant :=
  ⟨fun a b => a.second < b.second ∨ (a.second = b.second ∧ a.nano ≤ b.nano)⟩

instance (a b : Instant) : Decidable (a < b) :=
  inferInstanceAs (Decidable (_ ∨ _))

instance (a b : Instant) : Decidable (a ≤ b) :=
  inferInstanceAs (Decidable (_ ∨ _))

/-- The instant with a second and nanoseconds, when there is one. -/
def of? (second : Int) (nano : Nat) : Option Instant :=
  if h : firstSecond ≤ second ∧ second ≤ lastSecond ∧ nano < 2 * nanosPerSecond
      ∧ (nanosPerSecond ≤ nano → second % 60 = 59) then
    some ⟨second, nano, h.1, h.2.1, h.2.2.1, h.2.2.2⟩
  else none

/-- The day on which an instant falls by the universal clock. -/
def day (t : Instant) : Day where
  number := t.second / secondsPerDay
  firstDayNumber_le := by
    have h := t.firstSecond_le
    simp only [firstSecond, firstDayNumber, secondsPerDay] at *
    omega
  le_lastDayNumber := by
    have h := t.le_lastSecond
    simp only [lastSecond, lastDayNumber, secondsPerDay] at *
    omega

/-- The seconds passed in its day at an instant. -/
def secondOfDay (t : Instant) : Nat :=
  (t.second % secondsPerDay).toNat

end Instant

end QuayTimeline
