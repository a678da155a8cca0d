import Mathlib.Data.List.Induction
import Mathlib.Data.List.Nodup
import QuayTimeline.Members

/-! # Names that occur once

Putting a value under a name keeps each name once, and values under different names are put
together as they are. -/

namespace QuayTimeline.Members

variable {α : Type}

theorem mem_put {name : String} {value : α} {members : Members α} {m : String × α}
    (member : m ∈ put name value members) : m = (name, value) ∨ m ∈ members := by
  induction members with
  | nil => exact .inl (List.mem_singleton.mp member)
  | cons first rest ih =>
    rw [put] at member
    split at member
    next =>
      cases List.mem_cons.mp member with
      | inl same => exact .inl same
      | inr member => exact .inr (List.mem_cons_of_mem _ member)
    next =>
      cases List.mem_cons.mp member with
      | inl same => exact .inr (same ▸ List.mem_cons_self)
      | inr member => exact (ih member).imp_right (List.mem_cons_of_mem _)

theorem names_put_subset {name : String} {value : α} {members : Members α} {other : String}
    (member : other ∈ (put name value members).map (·.1)) :
    other = name ∨ other ∈ members.map (·.1) := by
  obtain ⟨m, memberPut, rfl⟩ := List.mem_map.mp member
  cases mem_put memberPut with
  | inl same => exact .inl (congrArg Prod.fst same)
  | inr found => exact .inr (List.mem_map.mpr ⟨m, found, rfl⟩)

theorem nodup_put (name : String) (value : α) {members : Members α}
    (nodup : (members.map (·.1)).Nodup) : ((put name value members).map (·.1)).Nodup := by
  induction members with
  | nil => exact List.nodup_singleton name
  | cons first rest ih =>
    obtain ⟨fresh, nodupRest⟩ := List.nodup_cons.mp nodup
    rw [put]
    split
    next same => exact List.nodup_cons.mpr ⟨same ▸ fresh, nodupRest⟩
    next distinct =>
      refine List.nodup_cons.mpr ⟨fun member => ?_, ih nodupRest⟩
      cases names_put_subset member with
      | inl same => exact distinct same
      | inr member => exact fresh member

/-- A new name goes to the end. -/
theorem put_of_not_mem {name : String} {members : Members α}
    (fresh : name ∉ members.map (·.1)) (value : α) :
    put name value members = members ++ [(name, value)] := by
  induction members with
  | nil => rfl
  | cons first rest ih =>
    rw [List.map_cons, List.mem_cons, not_or] at fresh
    rw [put, if_neg (Ne.symm fresh.1), ih fresh.2, List.cons_append]

theorem foldl_put {members merged : Members α}
    (nodup : ((merged ++ members).map (·.1)).Nodup) :
    members.foldl (fun merged m => put m.1 m.2 merged) merged = merged ++ members := by
  induction members generalizing merged with
  | nil => exact (List.append_nil merged).symm
  | cons m rest ih =>
    have fresh : m.1 ∉ merged.map (·.1) := by
      rw [List.map_append, List.nodup_append] at nodup
      exact fun member => nodup.2.2 _ member _ (List.mem_map.mpr ⟨m, List.mem_cons_self, rfl⟩) rfl
    rw [List.append_cons] at nodup ⊢
    rw [List.foldl_cons, put_of_not_mem fresh, ih nodup]

/-- Members with different names are kept as they are. -/
theorem unique_of_nodup {members : Members α} (nodup : (members.map (·.1)).Nodup) :
    unique members = members :=
  foldl_put nodup

theorem nodup_unique (members : Members α) : ((unique members).map (·.1)).Nodup := by
  -- Names stay different while more members are put.
  have kept (merged : Members α) (nodup : (merged.map (·.1)).Nodup) :
      ((members.foldl (fun merged m => put m.1 m.2 merged) merged).map (·.1)).Nodup := by
    induction members generalizing merged with
    | nil => exact nodup
    | cons m rest ih => exact ih _ (nodup_put m.1 m.2 nodup)
  exact kept [] .nil

theorem mem_foldl_put {members merged : Members α} {m : String × α}
    (member : m ∈ members.foldl (fun merged m => put m.1 m.2 merged) merged) :
    m ∈ merged ∨ m ∈ members := by
  induction members generalizing merged with
  | nil => exact .inl member
  | cons first rest ih =>
    cases ih member with
    | inl found =>
      cases mem_put found with
      | inl same => exact .inr (List.mem_cons.mpr (.inl same))
      | inr found => exact .inl found
    | inr found => exact .inr (List.mem_cons_of_mem _ found)

theorem mem_of_mem_unique {members : Members α} {m : String × α} (member : m ∈ unique members) :
    m ∈ members :=
  (mem_foldl_put member).resolve_left List.not_mem_nil

/-! ## Merging -/

/-- Members merged: each name once, where it appears first, with its last value. -/
structure IsMergeOf (merged members : Members α) : Prop where
  names : merged.map (·.1) = (members.map (·.1)).eraseDups
  lookup : ∀ name, merged.lookup name = members.reverse.lookup name

theorem unique_append_singleton (members : Members α) (m : String × α) :
    unique (members ++ [m]) = put m.1 m.2 (unique members) := by
  rw [unique, List.foldl_append]
  rfl

theorem names_put (name : String) (value : α) (members : Members α) :
    (put name value members).map (·.1) =
      if name ∈ members.map (·.1) then members.map (·.1) else members.map (·.1) ++ [name] := by
  induction members with
  | nil => rfl
  | cons first rest ih =>
    rw [put]
    by_cases same : first.1 = name
    · simp [same]
    · rw [if_neg same, List.map_cons, ih, List.map_cons]
      simp only [List.mem_cons, Ne.symm same, false_or]
      split <;> rfl

theorem lookup_put_of_ne {name other : String} (distinct : other ≠ name) (value : α)
    (members : Members α) : (put name value members).lookup other = members.lookup other := by
  have skipped : (other == name) = false := beq_false_of_ne distinct
  induction members with
  | nil => simp only [put, List.lookup_cons, skipped, List.lookup_nil]
  | cons first rest ih =>
    obtain ⟨n, v⟩ := first
    rw [put]
    split
    next same => simp only [List.lookup_cons, same, skipped]
    next => simp only [List.lookup_cons, ih]

theorem isMergeOf_unique (members : Members α) : (unique members).IsMergeOf members := by
  -- Taken in turn, a member that comes later counts for more.
  induction members using List.reverseRecOn with
  | nil => exact ⟨rfl, fun _ => rfl⟩
  | append_singleton rest m ih =>
    rw [unique_append_singleton]
    constructor
    · rw [names_put, ih.names, List.map_append, List.eraseDups_append]
      simp only [List.mem_eraseDups]
      split
      next found => simp [List.removeAll, found]
      next fresh =>
        have alone : [m.1].eraseDups = [m.1] := rfl
        simp [List.removeAll, fresh, alone]
    · intro name
      rw [List.reverse_concat, List.lookup_cons]
      by_cases same : name = m.1
      · simp [same, lookup_put]
      · rw [lookup_put_of_ne same, ih.lookup, beq_false_of_ne same]

end QuayTimeline.Members
