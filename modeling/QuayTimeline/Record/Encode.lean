import QuayTimeline.Calendar.InstantText
import QuayTimeline.Json.Printer
import QuayTimeline.Record.Quay

/-! # Writing records

A record is written as an object of JSON: its fields in a fixed order, the optional
ones only where they are present, and then the other attributes. -/

namespace QuayTimeline

/-- The member of an optional field, none when it is absent. -/
def optionalMember {α : Type} (key : String) (encode : α → Json) (field : Option α) :
    Members Json :=
  match field with
  | some x => [(key, encode x)]
  | none => []

def Identifier.encode {kind : IdentifierKind} (id : Identifier kind) : Json :=
  .string id.text

def Instant.encode (t : Instant) : Json :=
  .string (String.ofList t.text)

/-- A private code has two fields. -/
def PrivateCode.encode (code : PrivateCode) : Json :=
  .object [("type", .string code.sourceType), ("value", .string code.value)]

/-- The end of a range of instants is written if there is one. -/
def ValidBetween.encode (range : ValidBetween) : Json :=
  .object (("fromDate", range.fromDate.encode) ::
    optionalMember "toDate" Instant.encode range.toDate)

/-- Key values are an object of arrays of strings. -/
def KeyValues.encode (kvs : KeyValues) : Json :=
  .object (kvs.entries.map fun (key, items) => (key, .array (items.map .string)))

/-- The member for key values, none when there are no key values. -/
def KeyValues.member (kvs : KeyValues) : Members Json :=
  if kvs.entries = [] then [] else [("keyValues", kvs.encode)]

namespace Quay

def encode (q : Quay) : Json :=
  .object (optionalMember "netexId" Identifier.encode q.netexId
    ++ ("version", .integer q.version.toInt)
    :: optionalMember "publicCode" Identifier.encode q.publicCode
    ++ optionalMember "privateCode" PrivateCode.encode q.privateCode
    ++ optionalMember "name" Json.string q.name
    ++ q.keyValues.member
    ++ optionalMember "validBetween" ValidBetween.encode q.validBetween
    ++ q.others)

def text (q : Quay) : List Char :=
  q.encode.text

end Quay

namespace StopPlace

def encode (place : StopPlace) : Json :=
  .object (optionalMember "netexId" Identifier.encode place.netexId
    ++ ("version", .integer place.version.toInt)
    :: optionalMember "name" Json.string place.name
    ++ optionalMember "privateCode" PrivateCode.encode place.privateCode
    ++ ("quays", .array (place.quays.map Quay.encode))
    :: place.others)

def text (place : StopPlace) : List Char :=
  place.encode.text

end StopPlace

end QuayTimeline
