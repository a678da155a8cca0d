/-! # Identifiers

Texts that name a record and are never empty: the identifier that a record keeps in
the registry, and the code that passengers see. They are ordered by code point. -/

namespace QuayTimeline

/-- What an identifier names. -/
inductive IdentifierKind where
  /-- The persistent identity of a record. -/
  | netexId
  /-- The code of a quay as passengers see it, shared by all its versions. -/
  | publicCode
deriving DecidableEq, Repr

/-- How a kind of identifier is called. -/
def IdentifierKind.name : IdentifierKind → String
  | netexId => "NeTEx ID"
  | publicCode => "public code"

/-- What is said of an empty text in place of an identifier. -/
def IdentifierKind.emptyMessage (kind : IdentifierKind) : String :=
  s!"{kind.name} cannot be empty"

/-- A text of at least one character that identifies something. -/
@[ext] structure Identifier (kind : IdentifierKind) where
  text : String
  text_ne_empty : text ≠ ""
deriving DecidableEq

abbrev NetexId := Identifier .netexId

abbrev PublicCode := Identifier .publicCode

namespace Identifier

variable {kind : IdentifierKind}

/-- The identifier with a text, unless the text is empty. -/
def ofString? (s : String) : Option (Identifier kind) :=
  if h : s ≠ "" then some ⟨s, h⟩ else none

instance : LE (Identifier kind) := ⟨fun a b => a.text ≤ b.text⟩

instance : LT (Identifier kind) := ⟨fun a b => a.text < b.text⟩

theorem le_def {a b : Identifier kind} : a ≤ b ↔ a.text ≤ b.text := Iff.rfl

theorem lt_def {a b : Identifier kind} : a < b ↔ a.text < b.text := Iff.rfl

instance (a b : Identifier kind) : Decidable (a ≤ b) :=
  inferInstanceAs (Decidable (a.text ≤ b.text))

instance (a b : Identifier kind) : Decidable (a < b) :=
  inferInstanceAs (Decidable (a.text < b.text))

instance : ToString (Identifier kind) := ⟨text⟩

/-- Identifiers in their order, equal ones kept. -/
def sorted (ids : List (Identifier kind)) : List (Identifier kind) :=
  ids.mergeSort (· ≤ ·)

/-- Puts an identifier into a list in strict order, unless it is there. -/
def insertSorted (id : Identifier kind) : List (Identifier kind) → List (Identifier kind)
  | [] => [id]
  | other :: others =>
    if id < other then id :: other :: others
    else if id = other then other :: others
    else other :: insertSorted id others

/-- The different identifiers of a list, in strict order. -/
def distinct (ids : List (Identifier kind)) : List (Identifier kind) :=
  ids.foldr insertSorted []

end Identifier

end QuayTimeline
