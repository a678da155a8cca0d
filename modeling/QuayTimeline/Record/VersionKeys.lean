import QuayTimeline.FlatteningError
import QuayTimeline.Record.Quay

/-! # The key values of a version

A record says under three keys on which days it holds and with which priority. Reading
them works for every kind of record that has a label and lists of items under keys. A key
may be absent or have an empty list; nothing stands under it then. -/

namespace QuayTimeline

/-- A record with a label and with lists of items under keys. -/
class KeyedRecord (α : Type) where
  label : α → String
  /-- The items under a key, if the key is there. -/
  value? : α → String → Option (List String)

instance : KeyedRecord Quay where
  label := Quay.label
  value? q key := q.keyValues.get? key

namespace VersionKeys

/-- The key of the first day of a version. -/
def start : String := "validityStart"

/-- The key of the last day of a version. -/
def last : String := "validityEnd"

/-- The key of the priority of a version. -/
def priority : String := "priority"

variable {α : Type} [KeyedRecord α]

/-- The item under a key that may hold one item at most. -/
def single? (record : α) (key : String) : Except FlatteningError (Option String) :=
  match KeyedRecord.value? record key with
  | none => .ok none
  | some [] => .ok none
  | some [item] => .ok (some item)
  | some items => .error (.severalValues (KeyedRecord.label record) key items.length)

/-- The value of the item under a key, by a reader and the error for an item that it refuses. -/
def item? {β : Type} (read? : List Char → Option β)
    (unreadable : String → String → String → FlatteningError) (record : α) (key : String) :
    Except FlatteningError (Option β) := do
  match ← single? record key with
  | none => return none
  | some item =>
    match read? item.toList with
    | some value => return some value
    | none => throw (unreadable (KeyedRecord.label record) key item)

def day? (record : α) (key : String) : Except FlatteningError (Option Day) :=
  item? Day.read? .unreadableDate record key

def priority? (record : α) (key : String) : Except FlatteningError (Option Priority) :=
  item? Priority.read? .unreadableInteger record key

/-- A value that must be present under a key. -/
def required {β : Type} (record : α) (key : String) (value? : Option β) :
    Except FlatteningError β :=
  match value? with
  | some value => .ok value
  | none => .error (.missingField (KeyedRecord.label record) key)

/-- The validity that a record holds under the three keys. All of them are read before the
required ones are missed; an end, where there is one, does not lie before the start. -/
def validity (record : α) : Except FlatteningError Validity := do
  let start? ← day? record start
  let end? ← day? record last
  let priority? ← priority? record priority
  -- A value at fault is reported before a missing one.
  let start ← required record start start?
  let priority ← required record priority priority?
  match end? with
  | some last =>
    if last < start then throw (.endBeforeStart (KeyedRecord.label record) start last)
    else return .of start (some last) priority
  | none => return .of start none priority

end VersionKeys

end QuayTimeline
