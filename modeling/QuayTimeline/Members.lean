/-! # Named values

A list of values under names, in the order of their first appearance. Putting a value
under a name that is there replaces the value and keeps the place. -/

namespace QuayTimeline

/-- Values under names. -/
abbrev Members (α : Type) := List (String × α)

namespace Members

variable {α : Type}

/-- Puts a value under a name: in place of the one there, or after all others. -/
def put (name : String) (value : α) : Members α → Members α
  | [] => [(name, value)]
  | (n, v) :: rest => if n = name then (name, value) :: rest else (n, v) :: put name value rest

/-- One value per name, in the order of first appearance; the last value counts. -/
def unique (members : Members α) : Members α :=
  members.foldl (fun merged m => put m.1 m.2 merged) []

/-- What is put under a name is found there. -/
theorem lookup_put (name : String) (value : α) (members : Members α) :
    (put name value members).lookup name = some value := by
  induction members with
  | nil => simp [put]
  | cons m rest ih =>
    simp only [put]
    split
    · simp
    · next hne =>
      have hbeq : (name == m.1) = false := by simpa using fun h => hne h.symm
      simp only [List.lookup_cons, hbeq, ih]

end Members

end QuayTimeline
