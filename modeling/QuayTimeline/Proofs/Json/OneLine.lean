import QuayTimeline.Proofs.Json.ReadBack

/-! # Values in one line

The text of a value has no line feed, whatever strings and numbers the value holds: strings escape
it, and numbers are made of digits, signs, points and powers of ten. -/

namespace QuayTimeline

open Text

theorem lineFeed_not_mem_digits (n : Nat) : '\n' ∉ digits n := by
  intro member
  cases isDigit_of_mem_digits member

theorem lineFeed_not_mem_intDigits (n : Int) : '\n' ∉ intDigits n := by
  rw [intDigits]
  split <;> simp [lineFeed_not_mem_digits]

namespace Decimal

variable {ds : List Char}

theorem lineFeed_not_mem_significantDigits (n : Nat) : '\n' ∉ significantDigits n := by
  intro member
  rw [significantDigits, List.mem_reverse] at member
  have among := (List.dropWhile_sublist _).mem member
  exact lineFeed_not_mem_digits n (List.mem_reverse.mp among)

theorem lineFeed_not_mem_positional (oneLine : '\n' ∉ ds) (pointAfter : Int) :
    '\n' ∉ positional ds pointAfter := by
  have before (n : Nat) : '\n' ∉ ds.take n := fun member => oneLine (List.mem_of_mem_take member)
  have behind (n : Nat) : '\n' ∉ ds.drop n := fun member => oneLine (List.mem_of_mem_drop member)
  rw [positional]
  split
  · simp [oneLine]
  · dsimp only
    split <;> simp [before, behind]

theorem lineFeed_not_mem_scientific (oneLine : '\n' ∉ ds) (power : Int) :
    '\n' ∉ scientific ds power := by
  have before (n : Nat) : '\n' ∉ ds.take n := fun member => oneLine (List.mem_of_mem_take member)
  have behind : '\n' ∉ ds.tail := fun member => oneLine (List.mem_of_mem_tail member)
  rw [scientific]
  split <;> split <;> simp [before, behind, lineFeed_not_mem_intDigits]

theorem lineFeed_not_mem_text (style : Style) (x : Binary64) : '\n' ∉ text style x := by
  have sign : '\n' ∉ (if x.negative then ['-'] else []) := by split <;> simp
  have oneLine := lineFeed_not_mem_significantDigits (shortest x).digits
  rw [text]
  split
  · simp [sign]
  · dsimp only
    split
    · simp [sign, lineFeed_not_mem_positional oneLine]
    · simp [sign, lineFeed_not_mem_scientific oneLine]

end Decimal

namespace Json

theorem lineFeed_not_mem_list {opening closing : Char} (opens : '\n' ≠ opening)
    (closes : '\n' ≠ closing) {β : Type} {text : β → List Char} {parts : List β}
    (each : ∀ x ∈ parts, '\n' ∉ text x) :
    '\n' ∉ opening :: separated (parts.map text) ++ [closing] := by
  intro member
  rw [List.cons_append, List.mem_cons, List.mem_append, List.mem_singleton] at member
  obtain same | inside | same := member
  · exact opens same
  · obtain ⟨_, among, found⟩ := mem_of_mem_separated (by decide) inside
    obtain ⟨x, memberX, rfl⟩ := List.mem_map.mp among
    exact each x memberX found
  · exact closes same

theorem sizeOf_lt_array {v : Json} {items : List Json} (member : v ∈ items) :
    sizeOf v < sizeOf (array items) := by
  have inner := List.sizeOf_lt_of_mem member
  simp only [array.sizeOf_spec]
  omega

theorem sizeOf_lt_object {m : String × Json} {members : List (String × Json)}
    (member : m ∈ members) : sizeOf m.2 < sizeOf (object members) := by
  obtain ⟨key, v⟩ := m
  have inner := List.sizeOf_lt_of_mem member
  simp only [object.sizeOf_spec, Prod.mk.sizeOf_spec] at inner ⊢
  omega

/-- A value is written in one line. -/
theorem lineFeed_not_mem_text : ∀ v : Json, '\n' ∉ v.text
  | .null => by decide
  | .bool false => by decide
  | .bool true => by decide
  | .integer n => lineFeed_not_mem_intDigits n
  | .real x => Decimal.lineFeed_not_mem_text realStyle x
  | .string s => lineFeed_not_mem_quoted s
  | .array items => by
    rw [text, itemsText_eq_separated]
    apply lineFeed_not_mem_list (by decide) (by decide)
    intro v member
    exact lineFeed_not_mem_text v
  | .object members => by
    rw [text, membersText_eq_separated]
    apply lineFeed_not_mem_list (by decide) (by decide)
    intro m member
    simp only [memberText, List.mem_append, List.mem_cons, not_or]
    exact ⟨lineFeed_not_mem_quoted m.1, by decide, lineFeed_not_mem_text m.2⟩
termination_by v => sizeOf v
decreasing_by
  · exact sizeOf_lt_array member
  · exact sizeOf_lt_object member

end Json

end QuayTimeline
