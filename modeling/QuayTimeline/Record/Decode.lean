import QuayTimeline.Calendar.InstantText
import QuayTimeline.Json.Reader
import QuayTimeline.Record.Quay

/-! # Reading records

A record is an object of JSON. Its tree is walked in the order of the text, so that whatever is
wrong first is reported: a fault of the text, or a part that is not of the record. A field that
is known must not be repeated; where a field is optional, null means absence. Small records of
fixed fields may also be written as an array of the fields' values; members they have no field
for are skipped, and need no value. -/

namespace QuayTimeline

open Json (Tree)

/-- Why a text is no record. -/
inductive RecordError where
  /-- The text is no JSON, a value has no representation, or an array is longer than its record. -/
  | malformed
  /-- The text is JSON, but not this record. -/
  | unfit
  /-- An identifier is empty. -/
  | emptyIdentifier (kind : IdentifierKind)
deriving DecidableEq, Repr

/-- Reads a part of a record from a tree. -/
abbrev Decoder (α : Type) := Tree → Except RecordError α

namespace Decoder

/-- Why a tree is refused that is not of the kind expected. An array or object is not looked
into; other trees must have a value. -/
def mismatch : Tree → RecordError
  | .array _ => .unfit
  | .object _ => .unfit
  | t => if (t.value? 0).isSome then .unfit else .malformed

/-- Reads any value, in which arrays and objects are nested up to a depth. -/
def value (room : Nat) : Decoder Json := fun t =>
  match t.value? room with
  | some v => .ok v
  | none => .error .malformed

/-- Skips a tree, leaving a record as it is. -/
def skip {α : Type} (record : α) : Decoder α := fun t =>
  if t.isWhole then .ok record else .error .malformed

def string : Decoder String
  | .string (some s) => .ok s
  | t => .error (mismatch t)

/-- Reads null as absence. -/
def optional {α : Type} (decode : Decoder α) : Decoder (Option α)
  | .null => .ok none
  | t => some <$> decode t

def list {α : Type} (decode : Decoder α) : Decoder (List α)
  | .array items => items.mapM decode
  | t => .error (mismatch t)

def identifier {kind : IdentifierKind} : Decoder (Identifier kind) := fun t => do
  match Identifier.ofString? (← string t) with
  | some id => .ok id
  | none => .error (.emptyIdentifier kind)

def integer : Decoder Int := fun t =>
  match t.value? 0 with
  | some (.integer n) => .ok n
  | _ => .error (mismatch t)

def int64 : Decoder Int64 := fun t => do
  let n ← integer t
  if Int64.minValue.toInt ≤ n ∧ n ≤ Int64.maxValue.toInt then .ok (Int64.ofInt n)
  else .error .unfit

def instant : Decoder Instant := fun t => do
  match Instant.read? (← string t).toList with
  | some t => .ok t
  | none => .error .unfit

/-- Reads a key, which must be complete. -/
def key : Option String → Except RecordError String
  | some key => .ok key
  | none => .error .malformed

def keyValues : Decoder KeyValues
  | .object members =>
    KeyValues.ofList <$> members.mapM fun (name, t) => do return (← key name, ← list string t)
  | t => .error (mismatch t)

/-- Reads members in their order into a record. A key among the known ones that came
before is a fault. -/
def members {α : Type} (known : List String) (read : α → String → Decoder α) :
    α → List String → List Tree.Member → Except RecordError α
  | record, _, [] => .ok record
  | record, seen, (name, t) :: rest => do
    let name ← key name
    -- A repeated key is reported before what follows it.
    if name ∈ known ∧ name ∈ seen then .error .unfit
    else members known read (← read record name t) (name :: seen) rest

def object {α : Type} (known : List String) (read : α → String → Decoder α) (blank : α) :
    Decoder α
  | .object ms => members known read blank [] ms
  | t => .error (mismatch t)

/-- Reads a record of fixed fields from an object, or from an array of their values; an
array must not be longer than the fields. -/
def objectOrArray {α : Type} (fields : List String) (read : α → String → Decoder α)
    (blank : α) : Decoder α
  | .array items => do
    let record ← members fields read blank [] ((fields.map some).zip items)
    -- A field at fault is reported before the length.
    if items.length ≤ fields.length then .ok record else .error .malformed
  | t => object fields read blank t

/-- Reads the record in a text, after which only spaces may follow. -/
def read {α : Type} (decode : Decoder α) (cs : List Char) : Except RecordError α := do
  let (tree, rest) := Tree.ofText cs
  let record ← decode tree
  if rest = [] then .ok record else .error .malformed

def privateCodeMember (fields : Option String × Option String) (key : String) :
    Decoder (Option String × Option String) := fun t =>
  match key with
  | "type" => return (some (← string t), fields.2)
  | "value" => return (fields.1, some (← string t))
  | _ => skip fields t

/-- Reads a private code; both fields are required. -/
def privateCode : Decoder PrivateCode := fun t => do
  match ← objectOrArray ["type", "value"] privateCodeMember (none, none) t with
  | (some sourceType, some value) => .ok ⟨sourceType, value⟩
  | _ => .error .unfit

def validBetweenMember (fields : Option Instant × Option Instant) (key : String) :
    Decoder (Option Instant × Option Instant) := fun t =>
  match key with
  | "fromDate" => return (some (← instant t), fields.2)
  | "toDate" => return (fields.1, ← optional instant t)
  | _ => skip fields t

/-- Reads the instants between which a record holds; the first one is required. -/
def validBetween : Decoder ValidBetween := fun t => do
  match ← objectOrArray ["fromDate", "toDate"] validBetweenMember (none, none) t with
  | (some fromDate, toDate) => .ok ⟨fromDate, toDate⟩
  | _ => .error .unfit

end Decoder

/-- How deep arrays and objects may be nested, the outermost counted. -/
def greatestDepth : Nat := 127

namespace Quay

/-- The fields of a quay; all other members are kept as other attributes. -/
def fields : List String :=
  ["netexId", "version", "publicCode", "privateCode", "name", "keyValues", "validBetween"]

/-- Reads one member into a quay. The number says how deep arrays and objects may be nested
in another attribute. -/
def readMember (room : Nat) (q : Quay) (key : String) (t : Tree) : Except RecordError Quay :=
  match key with
  | "netexId" => return { q with netexId := ← Decoder.optional Decoder.identifier t }
  | "version" => return { q with version := ← Decoder.int64 t }
  | "publicCode" => return { q with publicCode := ← Decoder.optional Decoder.identifier t }
  | "privateCode" => return { q with privateCode := ← Decoder.optional Decoder.privateCode t }
  | "name" => return { q with name := ← Decoder.optional Decoder.string t }
  | "keyValues" => return { q with keyValues := ← Decoder.keyValues t }
  | "validBetween" => return { q with validBetween := ← Decoder.optional Decoder.validBetween t }
  | _ => return { q with others := Members.put key (← Decoder.value room t) q.others }

/-- Reads a quay, in whose attributes arrays and objects are nested up to a depth. -/
def decode (room : Nat) : Decoder Quay :=
  Decoder.object fields (readMember room) blank

/-- The quay that a text holds; the quay itself is the outermost object. -/
def read (cs : List Char) : Except RecordError Quay :=
  Decoder.read (decode (greatestDepth - 1)) cs

end Quay

namespace StopPlace

/-- The fields of a stop place; all other members are kept as other attributes. -/
def fields : List String :=
  ["netexId", "version", "name", "privateCode", "quays"]

/-- Reads one member into a stop place. Around the attributes of a quay there are three more
levels: the stop place, the array of its quays, and the quay. -/
def readMember (place : StopPlace) (key : String) (t : Tree) : Except RecordError StopPlace :=
  match key with
  | "netexId" => return { place with netexId := ← Decoder.optional Decoder.identifier t }
  | "version" => return { place with version := ← Decoder.int64 t }
  | "name" => return { place with name := ← Decoder.optional Decoder.string t }
  | "privateCode" =>
    return { place with privateCode := ← Decoder.optional Decoder.privateCode t }
  | "quays" =>
    return { place with quays := ← Decoder.list (Quay.decode (greatestDepth - 3)) t }
  | _ => do
    let v ← Decoder.value (greatestDepth - 1) t
    return { place with others := Members.put key v place.others }

def decode : Decoder StopPlace :=
  Decoder.object fields readMember blank

def read (cs : List Char) : Except RecordError StopPlace :=
  Decoder.read decode cs

end StopPlace

end QuayTimeline
