import Mathlib.Data.List.Sort
import QuayTimeline.Record.Identifier

/-! # Identifiers in order

Identifiers are linearly ordered by their text. The different identifiers of a list are those in
it, in strict order. -/

namespace QuayTimeline.Identifier

variable {kind : IdentifierKind}

theorem lt_irrefl (id : Identifier kind) : ¬ id < id :=
  String.lt_irrefl id.text

theorem lt_trans {a b c : Identifier kind} (first : a < b) (second : b < c) : a < c :=
  String.lt_trans first second

theorem lt_of_not_lt_of_ne {a b : Identifier kind} (notBelow : ¬ a < b) (distinct : a ≠ b) :
    b < a := by
  refine String.not_le.mp fun below => distinct (Identifier.ext ?_)
  exact String.le_antisymm below (String.not_lt.mp notBelow)

theorem mem_insertSorted {id other : Identifier kind} {ids : List (Identifier kind)} :
    other ∈ insertSorted id ids ↔ other = id ∨ other ∈ ids := by
  induction ids with
  | nil => exact List.mem_singleton.trans (by simp)
  | cons first rest ih =>
    simp only [insertSorted]
    split
    next => exact List.mem_cons
    split
    next same =>
      refine ⟨.inr, fun member => ?_⟩
      rcases member with rfl | member
      · exact same ▸ List.mem_cons_self
      · exact member
    next => rw [List.mem_cons, List.mem_cons, ih, or_left_comm]

theorem pairwise_insertSorted {id : Identifier kind} {ids : List (Identifier kind)}
    (sorted : ids.Pairwise (· < ·)) : (insertSorted id ids).Pairwise (· < ·) := by
  induction ids with
  | nil => exact List.pairwise_singleton _ _
  | cons first rest ih =>
    obtain ⟨later, sortedRest⟩ := List.pairwise_cons.mp sorted
    simp only [insertSorted]
    split
    next below =>
      refine List.pairwise_cons.mpr ⟨fun other member => ?_, sorted⟩
      rcases List.mem_cons.mp member with rfl | member
      · exact below
      · exact lt_trans below (later other member)
    split
    next => exact sorted
    next notBelow distinct =>
      refine List.pairwise_cons.mpr ⟨fun other member => ?_, ih sortedRest⟩
      rcases mem_insertSorted.mp member with rfl | member
      · exact lt_of_not_lt_of_ne notBelow distinct
      · exact later other member

theorem mem_distinct {id : Identifier kind} {ids : List (Identifier kind)} :
    id ∈ distinct ids ↔ id ∈ ids := by
  induction ids with
  | nil => rfl
  | cons first rest ih =>
    change id ∈ insertSorted first (distinct rest) ↔ _
    rw [mem_insertSorted, ih, List.mem_cons]

theorem pairwise_distinct (ids : List (Identifier kind)) : (distinct ids).Pairwise (· < ·) := by
  induction ids with
  | nil => exact .nil
  | cons first rest ih => exact pairwise_insertSorted ih

instance : Std.Irrefl fun a b : Identifier kind => a < b :=
  ⟨lt_irrefl⟩

instance : Std.Antisymm fun a b : Identifier kind => a < b :=
  ⟨fun a _ below above => absurd (lt_trans below above) (lt_irrefl a)⟩

/-- Identifiers in strict order are known by which they are. -/
theorem eq_of_mem_iff {ids others : List (Identifier kind)} (sorted : ids.Pairwise (· < ·))
    (othersSorted : others.Pairwise (· < ·)) (same : ∀ id, id ∈ ids ↔ id ∈ others) :
    ids = others :=
  List.Pairwise.eq_of_mem_iff sorted othersSorted same

theorem distinct_of_perm {ids others : List (Identifier kind)} (perm : ids.Perm others) :
    distinct ids = distinct others :=
  eq_of_mem_iff (pairwise_distinct ids) (pairwise_distinct others) fun _ =>
    mem_distinct.trans (perm.mem_iff.trans mem_distinct.symm)

end QuayTimeline.Identifier
