import QuayTimeline.Json.Printer
import QuayTimeline.Json.Reader
import QuayTimeline.Proofs.Json.Number

/-! # Lists read back

The items of an array and the members of an object are written alike, with commas in between. Such
a list is read back when each of its parts is, up to a comma or the closing bracket. -/

namespace QuayTimeline.Json

open Text

/-- Texts with commas in between. -/
def separated : List (List Char) → List Char
  | [] => []
  | [text] => text
  | text :: texts => text ++ ',' :: separated texts

theorem separated_cons_cons (text next : List Char) (texts : List (List Char)) :
    separated (text :: next :: texts) = text ++ ',' :: separated (next :: texts) := rfl

theorem length_le_separated {β : Type} (text : β → List Char) {parts : List β} {x : β}
    (member : x ∈ parts) : (text x).length ≤ (separated (parts.map text)).length := by
  induction parts with
  | nil => cases member
  | cons first rest ih =>
    cases rest with
    | nil => exact Nat.le_of_eq (congrArg (fun x => (text x).length) (List.mem_singleton.mp member))
    | cons next rest =>
      rw [List.map_cons, List.map_cons, separated_cons_cons, List.length_append, List.length_cons]
      cases List.mem_cons.mp member with
      | inl same =>
        subst same
        omega
      | inr member =>
        have shorter := ih member
        rw [List.map_cons] at shorter
        omega

theorem length_parts_le_separated {β : Type} {text : β → List Char} {parts : List β}
    (notEmpty : ∀ x ∈ parts, text x ≠ []) :
    parts.length ≤ (separated (parts.map text)).length := by
  induction parts with
  | nil => exact Nat.le_refl 0
  | cons first rest ih =>
    have positive : 0 < (text first).length :=
      List.length_pos_iff.mpr (notEmpty first List.mem_cons_self)
    cases rest with
    | nil => exact positive
    | cons next rest =>
      have shorter := ih fun x member => notEmpty x (List.mem_cons_of_mem _ member)
      simp only [List.map_cons, separated_cons_cons, List.length_append, List.length_cons]
        at shorter ⊢
      omega

/-- The characters of a list are commas and those of its parts. -/
theorem mem_of_mem_separated {c : Char} (notComma : c ≠ ',') {texts : List (List Char)}
    (member : c ∈ separated texts) : ∃ text ∈ texts, c ∈ text := by
  induction texts with
  | nil => cases member
  | cons text texts ih =>
    cases texts with
    | nil => exact ⟨text, List.mem_cons_self, member⟩
    | cons next texts =>
      rw [separated_cons_cons, List.mem_append, List.mem_cons] at member
      obtain here | comma | later := member
      · exact ⟨text, List.mem_cons_self, here⟩
      · exact absurd comma notComma
      · obtain ⟨other, among, found⟩ := ih later
        exact ⟨other, List.mem_cons_of_mem _ among, found⟩

/-- A text that starts with a part of its own, and not with space or the end of a list. -/
def Begins (close : Char) (text : List Char) : Prop :=
  ∃ c cs, text = c :: cs ∧ isSpace c = false ∧ c ≠ close

theorem Begins.ne_nil {close : Char} {text : List Char} (begins : Begins close text) :
    text ≠ [] := by
  obtain ⟨c, cs, rfl, -⟩ := begins
  exact List.cons_ne_nil c cs

theorem skipSpace_of_not_space {c : Char} (visible : isSpace c = false) (cs : List Char) :
    skipSpace (c :: cs) = c :: cs := by
  simp [skipSpace, visible]

theorem Begins.skipSpace {close : Char} {text : List Char} (begins : Begins close text)
    (rest : List Char) : skipSpace (text ++ rest) = text ++ rest := by
  obtain ⟨c, cs, rfl, visible, -⟩ := begins
  exact skipSpace_of_not_space visible _

theorem Begins.separated_append {close : Char} {text : List Char} (begins : Begins close text)
    (texts : List (List Char)) (rest : List Char) :
    ∃ c cs, separated (text :: texts) ++ rest = c :: cs ∧ isSpace c = false ∧ c ≠ close := by
  obtain ⟨c, cs, rfl, visible, notClose⟩ := begins
  cases texts with
  | nil => exact ⟨c, cs ++ rest, rfl, visible, notClose⟩
  | cons next texts => exact ⟨c, _, rfl, visible, notClose⟩

/-- A bracket that closes a list. -/
structure IsClose (close : Char) : Prop where
  visible : isSpace close = false
  stops : continuesNumber close = false
  notComma : close ≠ ','

section Lists

variable {α β : Type} {close : Char} (fault : α) {item : Scanner α} {text : β → List Char}
  {value : β → α} {parts : List β}

/-- The items of a list are taken up to the closing bracket. Each is followed by that bracket or by
a comma, and neither continues a number. -/
theorem takeItems_separated (isClose : IsClose close)
    (taken : ∀ x ∈ parts, ∀ rest, Stops continuesNumber rest →
      item (text x ++ rest) = (value x, rest))
    (begins : ∀ x ∈ parts, Begins close (text x)) {fuel : Nat} (enough : parts.length ≤ fuel)
    (notEmpty : parts ≠ []) (rest : List Char) :
    takeItems close fault item fuel (separated (parts.map text) ++ close :: rest) =
      (parts.map value, rest) := by
  induction parts generalizing fuel with
  | nil => exact absurd rfl notEmpty
  | cons x parts ih =>
    obtain ⟨fuel, rfl⟩ : ∃ n, fuel = n + 1 := ⟨fuel - 1, by simp at enough; omega⟩
    cases parts with
    | nil =>
      have first := taken x List.mem_cons_self (close :: rest) (stops_cons.mpr isClose.stops)
      change takeItems close fault item (fuel + 1) (text x ++ close :: rest) = _
      simp only [takeItems, first, skipSpace_of_not_space isClose.visible, if_neg isClose.notComma,
        if_true]
      rfl
    | cons y parts =>
      have comma : isSpace ',' = false := by decide
      have first := taken x List.mem_cons_self
        (',' :: (separated ((y :: parts).map text) ++ close :: rest)) (stops_cons.mpr (by decide))
      have others := ih (fun z member => taken z (List.mem_cons_of_mem _ member))
        (fun z member => begins z (List.mem_cons_of_mem _ member))
        (Nat.le_of_succ_le_succ enough) (List.cons_ne_nil y parts)
      obtain ⟨c, cs, split, visible, -⟩ :=
        (begins y (List.mem_cons_of_mem _ List.mem_cons_self)).separated_append
          (parts.map text) (close :: rest)
      have next : skipSpace (separated ((y :: parts).map text) ++ close :: rest) =
          separated ((y :: parts).map text) ++ close :: rest := by
        rw [List.map_cons, split, skipSpace_of_not_space visible]
      rw [List.map_cons, List.map_cons, separated_cons_cons, List.append_assoc, List.cons_append,
        ← List.map_cons]
      simp only [takeItems, first, skipSpace_of_not_space comma, if_true, next, others]
      rfl

/-- A list is taken with its closing bracket. -/
theorem takeList_separated (isClose : IsClose close)
    (taken : ∀ x ∈ parts, ∀ rest, Stops continuesNumber rest →
      item (text x ++ rest) = (value x, rest))
    (begins : ∀ x ∈ parts, Begins close (text x)) {fuel : Nat} (enough : parts.length ≤ fuel)
    (rest : List Char) :
    takeList close fault item fuel (separated (parts.map text) ++ close :: rest) =
      (parts.map value, rest) := by
  cases parts with
  | nil =>
    change takeList close fault item fuel (close :: rest) = ([], rest)
    simp only [takeList, skipSpace_of_not_space isClose.visible, if_true]
  | cons x parts =>
    have items := takeItems_separated fault isClose taken begins enough
      (List.cons_ne_nil x parts) rest
    obtain ⟨c, cs, split, visible, notClose⟩ :=
      (begins x List.mem_cons_self).separated_append (parts.map text) (close :: rest)
    rw [List.map_cons, split] at items ⊢
    simp only [takeList, skipSpace_of_not_space visible, if_neg notClose, items]

end Lists

end QuayTimeline.Json
