import QuayTimeline.Json.Quoted
import QuayTimeline.Json.Value
import QuayTimeline.Decimal.Shortest

/-! # Writing JSON

The compact text of a value: no spaces, members and items in their order. -/

namespace QuayTimeline.Json

open Text

/-- Binary numbers are written with a point for powers of ten from -5 to 15. -/
def realStyle : Decimal.Style := ⟨-5, 15⟩

mutual

def text : Json → List Char
  | .null => ['n', 'u', 'l', 'l']
  | .bool true => ['t', 'r', 'u', 'e']
  | .bool false => ['f', 'a', 'l', 's', 'e']
  | .integer n => intDigits n
  | .real x => Decimal.text realStyle x
  | .string s => quoted s
  | .array items => '[' :: itemsText items ++ [']']
  | .object members => '{' :: membersText members ++ ['}']

/-- The texts of items, separated by commas. -/
def itemsText : List Json → List Char
  | [] => []
  | [v] => v.text
  | v :: vs => v.text ++ ',' :: itemsText vs

/-- The texts of members, separated by commas. -/
def membersText : Members Json → List Char
  | [] => []
  | [(k, v)] => quoted k ++ ':' :: v.text
  | (k, v) :: ms => quoted k ++ ':' :: v.text ++ ',' :: membersText ms

end

end QuayTimeline.Json
