import QuayTimeline.Calendar.Instant
import QuayTimeline.Json.Value
import QuayTimeline.Record.Identifier
import QuayTimeline.Record.KeyValues

/-! # Quays and stop places

A stop place owns quays, the places where vehicles stop. The same quay may occur in
several versions. Only the attributes that flattening works with have a field; all
others are carried along as they are. -/

namespace QuayTimeline

/-- A code given by the system that a record was imported from. -/
structure PrivateCode where
  /-- The name of that system. -/
  sourceType : String
  value : String
deriving DecidableEq

/-- The instants between which a record holds; without an end it holds on. -/
structure ValidBetween where
  fromDate : Instant
  toDate : Option Instant
deriving DecidableEq

/-- A place where vehicles stop. -/
structure Quay where
  netexId : Option NetexId
  version : Int64
  publicCode : Option PublicCode
  privateCode : Option PrivateCode
  name : Option String
  keyValues : KeyValues
  validBetween : Option ValidBetween
  /-- The other attributes, each key once, in the order of their first appearance. -/
  others : Members Json

structure StopPlace where
  netexId : Option NetexId
  version : Int64
  name : Option String
  privateCode : Option PrivateCode
  quays : List Quay
  /-- The other attributes, each key once, in the order of their first appearance. -/
  others : Members Json

namespace Quay

/-- A quay of which nothing is known. -/
def blank : Quay := ⟨none, 0, none, none, none, .empty, none, []⟩

/-- The system that a quay was imported from. -/
def sourceType? (q : Quay) : Option String :=
  q.privateCode.map (·.sourceType)

/-- The quay without its identity, to be stored as a new version. -/
def detached (q : Quay) : Quay :=
  { q with netexId := none, version := 0 }

/-- How a quay is called in messages. -/
def label (q : Quay) : String :=
  match q.netexId, q.publicCode with
  | some id, _ => s!"quay {id}"
  | none, some code => s!"quay with public code {code}"
  | none, none => "unidentified quay"

end Quay

namespace StopPlace

/-- A stop place of which nothing is known. -/
def blank : StopPlace := ⟨none, 0, none, none, [], []⟩

def label (place : StopPlace) : String :=
  match place.netexId, place.name with
  | some id, _ => id.text
  | none, some name => name
  | none, none => "<unnamed stop place>"

end StopPlace

end QuayTimeline
