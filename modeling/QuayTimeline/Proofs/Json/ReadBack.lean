import QuayTimeline.Proofs.Json.Quoted
import QuayTimeline.Proofs.Json.Separated
import QuayTimeline.Proofs.Members
import QuayTimeline.Proofs.Outcome

/-! # Values read back

The text of a value without fractions is read as a tree of the same shape, and the tree has that
value: if it is nested no deeper than the reader allows, its integers fit 64 bits and its objects
have each key once. All values that are read meet these conditions. -/

namespace QuayTimeline.Json

open Text

/-- All numbers in a value are integers. Negative zero, which is none of the 64 bit integers,
counts as one. -/
inductive NumbersAreIntegers : Json → Prop where
  | null : NumbersAreIntegers .null
  | bool (b : Bool) : NumbersAreIntegers (.bool b)
  | integer (n : Int) : NumbersAreIntegers (.integer n)
  | negativeZero : NumbersAreIntegers (.real (.zero true))
  | string (s : String) : NumbersAreIntegers (.string s)
  | array {items : List Json} (each : ∀ v ∈ items, NumbersAreIntegers v) :
      NumbersAreIntegers (.array items)
  | object {members : Members Json} (each : ∀ m ∈ members, NumbersAreIntegers m.2) :
      NumbersAreIntegers (.object members)

theorem numbersAreIntegers_array_iff {items : List Json} :
    NumbersAreIntegers (.array items) ↔ ∀ v ∈ items, NumbersAreIntegers v :=
  ⟨fun | .array each => each, .array⟩

theorem numbersAreIntegers_object_iff {members : Members Json} :
    NumbersAreIntegers (.object members) ↔ ∀ m ∈ members, NumbersAreIntegers m.2 :=
  ⟨fun | .object each => each, .object⟩

mutual

instance decidableNumbersAreIntegers : (v : Json) → Decidable (NumbersAreIntegers v)
  | .null => isTrue .null
  | .bool b => isTrue (.bool b)
  | .integer n => isTrue (.integer n)
  | .real x =>
    decidable_of_iff (x = .zero true) ⟨fun same => same ▸ .negativeZero, fun | .negativeZero => rfl⟩
  | .string s => isTrue (.string s)
  | .array items =>
    have := decidableItemsAreIntegers items
    decidable_of_iff _ numbersAreIntegers_array_iff.symm
  | .object members =>
    have := decidableMembersAreIntegers members
    decidable_of_iff _ numbersAreIntegers_object_iff.symm

def decidableItemsAreIntegers :
    (items : List Json) → Decidable (∀ v ∈ items, NumbersAreIntegers v)
  | [] => isTrue (List.forall_mem_nil _)
  | v :: items =>
    have := decidableNumbersAreIntegers v
    have := decidableItemsAreIntegers items
    decidable_of_iff _ List.forall_mem_cons.symm

def decidableMembersAreIntegers :
    (members : List (String × Json)) → Decidable (∀ m ∈ members, NumbersAreIntegers m.2)
  | [] => isTrue (List.forall_mem_nil _)
  | (_, v) :: members =>
    have := decidableNumbersAreIntegers v
    have := decidableMembersAreIntegers members
    decidable_of_iff _ List.forall_mem_cons.symm

end

/-- A value that a text can hold, with arrays and objects nested up to a depth. -/
def Fits : Nat → Json → Prop
  | _, .integer n => -2 ^ 63 ≤ n ∧ n < 2 ^ 64
  | 0, .array _ => False
  | room + 1, .array items => ∀ v ∈ items, v.Fits room
  | 0, .object _ => False
  | room + 1, .object members => (members.map (·.1)).Nodup ∧ ∀ m ∈ members, m.2.Fits room
  | _, _ => True

mutual

/-- The tree as which the text of a value is read. Of the binary numbers only negative zero
counts. -/
def tree : Json → Tree
  | .null => .null
  | .bool b => .bool b
  | .integer n => .number (.ofInt n)
  | .real _ => .number .negativeZero
  | .string s => .string (some s)
  | .array items => .array (itemTrees items)
  | .object members => .object (memberTrees members)

/-- The trees of items. -/
def itemTrees : List Json → List Tree
  | [] => []
  | v :: vs => v.tree :: itemTrees vs

/-- The trees of members, under their keys. -/
def memberTrees : Members Json → List Tree.Member
  | [] => []
  | (k, v) :: ms => (some k, v.tree) :: memberTrees ms

end

theorem itemTrees_eq_map (items : List Json) : itemTrees items = items.map tree := by
  induction items with
  | nil => rfl
  | cons v vs ih => rw [itemTrees, ih, List.map_cons]

theorem memberTrees_eq_map (members : Members Json) :
    memberTrees members = members.map fun m => (some m.1, m.2.tree) := by
  induction members with
  | nil => rfl
  | cons m ms ih => rw [memberTrees, ih, List.map_cons]

/-! ## Texts -/

/-- The text of a member. -/
def memberText (m : String × Json) : List Char :=
  quoted m.1 ++ ':' :: m.2.text

theorem itemsText_eq_separated (items : List Json) :
    itemsText items = separated (items.map text) := by
  induction items with
  | nil => rfl
  | cons v vs ih =>
    cases vs with
    | nil => rfl
    | cons w ws =>
      change v.text ++ ',' :: itemsText (w :: ws) = _
      rw [ih]
      rfl

theorem membersText_eq_separated (members : Members Json) :
    membersText members = separated (members.map memberText) := by
  induction members with
  | nil => rfl
  | cons m ms ih =>
    cases ms with
    | nil => rfl
    | cons n ns =>
      change quoted m.1 ++ ':' :: m.2.text ++ ',' :: membersText (n :: ns) = _
      rw [ih]
      rfl

theorem begins_quoted (close : Char) (notQuote : close ≠ '"') (s : String) (rest : List Char) :
    Begins close (quoted s ++ rest) :=
  ⟨'"', _, rfl, by decide, notQuote.symm⟩

theorem exists_intDigits_eq_cons (n : Int) :
    ∃ c cs, intDigits n = c :: cs ∧ (c = '-' ∨ c.isDigit = true) := by
  obtain ⟨d, ds, split, digit⟩ := exists_digits_eq_cons n.natAbs
  rw [intDigits]
  split
  next => exact ⟨'-', _, rfl, .inl rfl⟩
  next => exact ⟨d, ds, split, .inr digit⟩

theorem isSpace_of_isDigit {c : Char} (digit : c.isDigit = true) : isSpace c = false := by
  by_contra space
  simp only [isSpace, Bool.not_eq_false, Bool.or_eq_true, decide_eq_true_eq] at space
  rcases space with ((rfl | rfl) | rfl) | rfl <;> cases digit

theorem begins_text {v : Json} (integers : NumbersAreIntegers v) : Begins ']' v.text := by
  cases integers with
  | null => exact ⟨'n', _, rfl, by decide, by decide⟩
  | bool b =>
    cases b with
    | false => exact ⟨'f', _, rfl, by decide, by decide⟩
    | true => exact ⟨'t', _, rfl, by decide, by decide⟩
  | integer n =>
    obtain ⟨c, cs, split, first⟩ := exists_intDigits_eq_cons n
    refine ⟨c, cs, split, ?_⟩
    cases first with
    | inl sign => exact sign ▸ ⟨by decide, by decide⟩
    | inr digit => exact ⟨isSpace_of_isDigit digit, ne_of_isDigit digit (by decide)⟩
  | negativeZero => exact ⟨'-', _, rfl, by decide, by decide⟩
  | string s => exact ⟨'"', _, rfl, by decide, by decide⟩
  | array => exact ⟨'[', _, rfl, by decide, by decide⟩
  | object => exact ⟨'{', _, rfl, by decide, by decide⟩

/-! ## From text to tree -/

namespace Tree

variable {rest : List Char}

theorem takeMember_memberText {value : Scanner Tree} {m : String × Json}
    (integers : NumbersAreIntegers m.2)
    (taken : value (m.2.text ++ rest) = (m.2.tree, rest)) :
    takeMember value (memberText m ++ rest) = ((some m.1, m.2.tree), rest) := by
  have colon : skipSpace (':' :: (m.2.text ++ rest)) = ':' :: (m.2.text ++ rest) :=
    skipSpace_of_not_space (by decide) _
  have quoted : takeQuoted? (m.1.toList.flatMap quotedChar ++ '"' :: ':' :: (m.2.text ++ rest)) =
      some (some m.1, ':' :: (m.2.text ++ rest)) := takeQuoted?_quoted m.1 _
  simp only [memberText, Json.quoted, List.cons_append, List.append_assoc, List.nil_append,
    takeMember, quoted, colon, (begins_text integers).skipSpace, taken]

theorem take_eq_takeLeaf? {c : Char} (notArray : c ≠ '[') (notObject : c ≠ '{') (fuel : Nat)
    (cs : List Char) : take (fuel + 1) (c :: cs) = (takeLeaf? (c :: cs)).getD (.fault, []) := by
  rw [take.eq_def]
  split
  next same => cases same
  next same =>
    cases same
    split
    next same => exact absurd (List.cons.inj same).1 notArray
    next same => exact absurd (List.cons.inj same).1 notObject
    next => rfl

/-- What starts with a sign or a digit is a number. -/
theorem take_number {c : Char} {cs left : List Char} {parts : NumberParts}
    (first : c = '-' ∨ c.isDigit = true) (taken : NumberParts.take? (c :: cs) = some (parts, left))
    (fuel : Nat) : take (fuel + 1) (c :: cs) = (.number parts, left) := by
  have notFirst : c ∉ ['[', '{', '"', 'n', 't', 'f'] := by
    cases first with
    | inl sign => exact sign ▸ by decide
    | inr digit =>
      intro member
      simp only [List.mem_cons, List.not_mem_nil, or_false] at member
      rcases member with rfl | rfl | rfl | rfl | rfl | rfl <;> cases digit
  simp only [List.mem_cons, List.not_mem_nil, or_false, not_or] at notFirst
  obtain ⟨notArray, notObject, notString, notNull, notTrue, notFalse⟩ := notFirst
  rw [take_eq_takeLeaf? notArray notObject, takeLeaf?.eq_def]
  split
  next same => exact absurd (List.cons.inj same).1 notString
  next same => exact absurd (List.cons.inj same).1 notNull
  next same => exact absurd (List.cons.inj same).1 notTrue
  next same => exact absurd (List.cons.inj same).1 notFalse
  next =>
    rw [taken]
    rfl

theorem isClose_bracket : IsClose ']' := ⟨by decide, by decide, by decide⟩

theorem isClose_brace : IsClose '}' := ⟨by decide, by decide, by decide⟩

/-- The text of a value is taken as its tree. The fuel is used up by nesting and by the items of a
list, each of which takes a character. -/
theorem take_text {v : Json} (integers : NumbersAreIntegers v) {fuel : Nat}
    (enough : v.text.length < fuel) (stops : Stops continuesNumber rest) :
    take fuel (v.text ++ rest) = (v.tree, rest) := by
  induction fuel generalizing v rest with
  | zero => exact absurd enough (Nat.not_lt_zero _)
  | succ fuel ih =>
    cases integers with
    | null => rfl
    | bool b => cases b <;> rfl
    | integer n =>
      have taken := NumberParts.take?_intDigits n stops
      obtain ⟨c, cs, split, first⟩ := exists_intDigits_eq_cons n
      change take (fuel + 1) (intDigits n ++ rest) = _
      rw [split] at taken ⊢
      exact take_number first taken fuel
    | negativeZero => exact take_number (.inl rfl) (NumberParts.take?_negativeZero stops) fuel
    | string s =>
      -- The opening quote is taken before the string.
      have quoted := takeQuoted?_quoted s rest
      change take (fuel + 1) ('"' :: (s.toList.flatMap quotedChar ++ ['"']) ++ rest) = _
      rw [List.cons_append, List.append_assoc,
        take_eq_takeLeaf? (by decide) (by decide)]
      simp only [takeLeaf?, List.singleton_append, quoted]
      rfl
    | @array items each =>
      rw [text, itemsText_eq_separated] at enough ⊢
      rw [List.length_append, List.length_cons] at enough
      have count := length_parts_le_separated fun v member => (begins_text (each v member)).ne_nil
      -- Each item is shorter than the whole, so the fuel that is left is enough for it.
      have list : takeList ']' .fault (take fuel) fuel (separated (items.map text) ++ ']' :: rest) =
          (items.map tree, rest) := by
        refine takeList_separated fault isClose_bracket (fun v member left stops => ?_)
          (fun v member => begins_text (each v member)) (by omega) rest
        have short := length_le_separated text member
        exact ih (each v member) (by omega) stops
      simp only [List.cons_append, List.append_assoc, List.nil_append, take, list, tree,
        itemTrees_eq_map]
    | @object members each =>
      rw [text, membersText_eq_separated] at enough ⊢
      rw [List.length_append, List.length_cons] at enough
      have begins : ∀ m ∈ members, Begins '}' (memberText m) := fun m _ =>
        begins_quoted '}' (by decide) m.1 _
      have count := length_parts_le_separated fun m member => (begins m member).ne_nil
      have list : takeList '}' (none, .fault) (takeMember (take fuel)) fuel
          (separated (members.map memberText) ++ '}' :: rest) =
          (members.map fun m => (some m.1, m.2.tree), rest) := by
        refine takeList_separated (none, fault) isClose_brace (fun m member left stops => ?_)
          begins (by omega) rest
        have short := length_le_separated memberText member
        rw [memberText, List.length_append, List.length_cons] at short
        exact takeMember_memberText (each m member) (ih (each m member) (by omega) stops)
      simp only [List.cons_append, List.append_assoc, List.nil_append, take, list, tree,
        memberTrees_eq_map]

theorem ofText_text {v : Json} (integers : NumbersAreIntegers v) :
    ofText v.text = (v.tree, []) := by
  have start : skipSpace v.text = v.text := by
    simpa using (begins_text integers).skipSpace []
  have taken := take_text integers (Nat.lt_succ_self v.text.length) (stops_nil)
  rw [List.append_nil] at taken
  simp only [ofText, start, taken]
  rfl

/-! ## From tree to value -/

theorem itemValues?_eq_some_iff {room : Nat} {trees : List Tree} {values : List Json} :
    itemValues? room trees = some values ↔
      List.Forall₂ (fun t v => value? room t = some v) trees values := by
  induction trees generalizing values with
  | nil =>
    rw [itemValues?, List.forall₂_nil_left_iff, Option.some.injEq]
    exact eq_comm
  | cons t trees ih =>
    simp only [itemValues?, Option.bind_eq_bind, Option.bind_eq_some_iff,
      List.forall₂_cons_left_iff, ih]
    constructor
    · rintro ⟨v, first, others, related, ⟨rfl⟩⟩
      exact ⟨v, others, first, related, rfl⟩
    · rintro ⟨v, others, first, related, rfl⟩
      exact ⟨v, first, others, related, rfl⟩

theorem memberValues?_eq_some_iff {room : Nat} {trees : List Tree.Member}
    {members : Members Json} :
    memberValues? room trees = some members ↔
      List.Forall₂ (fun t m => t.1 = some m.1 ∧ value? room t.2 = some m.2) trees members := by
  induction trees generalizing members with
  | nil =>
    rw [memberValues?, List.forall₂_nil_left_iff, Option.some.injEq]
    exact eq_comm
  | cons t trees ih =>
    obtain ⟨key, t⟩ := t
    simp only [memberValues?, Option.bind_eq_bind, Option.bind_eq_some_iff,
      List.forall₂_cons_left_iff, ih]
    constructor
    · rintro ⟨name, rfl, v, first, others, related, ⟨rfl⟩⟩
      exact ⟨(name, v), others, ⟨rfl, first⟩, related, rfl⟩
    · rintro ⟨⟨name, v⟩, others, ⟨rfl, first⟩, related, rfl⟩
      exact ⟨name, rfl, v, first, others, related, rfl⟩

/-- The tree of a value has that value. -/
theorem value?_tree {v : Json} (integers : NumbersAreIntegers v) {room : Nat} (fits : v.Fits room) :
    value? room v.tree = some v := by
  induction room generalizing v with
  | zero =>
    cases integers with
    | integer n => exact NumberParts.value?_ofInt fits.1 fits.2
    | array each => exact absurd fits id
    | object each => exact absurd fits id
    | _ => rfl
  | succ room ih =>
    cases integers with
    | integer n => exact NumberParts.value?_ofInt fits.1 fits.2
    | @array items each =>
      have values : itemValues? room (items.map tree) = some items := by
        refine itemValues?_eq_some_iff.mpr
          (List.forall₂_map_left_iff.mpr (List.forall₂_same.mpr ?_))
        exact fun v member => ih (each v member) (fits v member)
      rw [tree, itemTrees_eq_map, value?, values]
      rfl
    | @object members each =>
      obtain ⟨nodup, fitsEach⟩ := fits
      have values : memberValues? room (members.map fun m => (some m.1, m.2.tree)) =
          some members := by
        refine memberValues?_eq_some_iff.mpr
          (List.forall₂_map_left_iff.mpr (List.forall₂_same.mpr ?_))
        exact fun m member => ⟨rfl, ih (each m member) (fitsEach m member)⟩
      rw [tree, memberTrees_eq_map, value?, values, Option.map_some, Members.unique_of_nodup nodup]
    | _ => rfl

theorem fits_of_integer? {negative : Bool} {magnitude : Nat} {n : Int}
    (read : NumberParts.integer? negative magnitude = some n) : -2 ^ 63 ≤ n ∧ n < 2 ^ 64 := by
  have least : Int64.minValue.toInt = -2 ^ 63 := by decide
  have size : UInt64.size = 2 ^ 64 := by decide
  rw [NumberParts.integer?] at read
  split at read
  next =>
    split at read
    next fits =>
      cases read
      omega
    next => cases read
  next =>
    split at read
    next fits =>
      cases read
      omega
    next => cases read

theorem fits_of_number {parts : NumberParts} {v : Json} (read : parts.value? = some v)
    (room : Nat) : v.Fits room := by
  rw [NumberParts.value?] at read
  split at read
  next n _ _ found =>
    cases read
    cases room <;> exact fits_of_integer? found
  next =>
    obtain ⟨x, -, rfl⟩ := Option.map_eq_some_iff.mp read
    cases room <;> trivial

/-- What is read from a tree fits the depth at which it was read. -/
theorem fits_of_value? {room : Nat} {t : Tree} {v : Json} (read : value? room t = some v) :
    v.Fits room := by
  induction room generalizing t v with
  | zero =>
    cases t with
    | number parts => exact fits_of_number read 0
    | string s =>
      obtain ⟨text, -, rfl⟩ := Option.map_eq_some_iff.mp read
      trivial
    | _ => cases read <;> trivial
  | succ room ih =>
    cases t with
    | number parts => exact fits_of_number read (room + 1)
    | string s =>
      obtain ⟨text, -, rfl⟩ := Option.map_eq_some_iff.mp read
      trivial
    | array items =>
      obtain ⟨values, readItems, rfl⟩ := Option.map_eq_some_iff.mp read
      intro v member
      obtain ⟨t, -, readItem⟩ := exists_of_mem_right (itemValues?_eq_some_iff.mp readItems) member
      exact ih readItem
    | object members =>
      obtain ⟨values, readMembers, rfl⟩ := Option.map_eq_some_iff.mp read
      refine ⟨Members.nodup_unique values, fun m member => ?_⟩
      obtain ⟨t, -, -, readMember⟩ := exists_of_mem_right
        (memberValues?_eq_some_iff.mp readMembers) (Members.mem_of_mem_unique member)
      exact ih readMember
    | _ => cases read <;> trivial

end Tree

end QuayTimeline.Json
