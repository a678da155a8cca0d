import QuayTimeline.Decimal.Binary64
import QuayTimeline.Members

/-! # JSON values

The data that a text can hold. Members of an object keep their order; those that were read
from a text have one member per key. -/

namespace QuayTimeline

/-- A JSON value. Integers are those that fit 64 bits; other numbers are binary ones. -/
inductive Json where
  | null
  | bool (b : Bool)
  | integer (n : Int)
  | real (x : Binary64)
  | string (s : String)
  | array (items : List Json)
  | object (members : List (String × Json))

end QuayTimeline
