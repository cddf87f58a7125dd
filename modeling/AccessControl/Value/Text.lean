import AccessControl.Value.Basic
import AccessControl.Json.Writer
/-!
# The text of a value

Single values are written plainly, a string as it is.  Lists and maps are written as compact JSON,
where strings have quotes and floats always a point or an exponent.
-/

namespace AccessControl.Value

mutual

/-- The JSON value of the same shape. -/
def toJson : Value → Json
  | .bool b => .bool b
  | .int n => .int n.toInt
  | .float x => .float x
  | .str s => .str s
  | .list items => .arr (itemsToJson items)
  | .map entries => .obj (entriesToJson entries)

def itemsToJson : List Value → List Json
  | [] => []
  | v :: rest => toJson v :: itemsToJson rest

def entriesToJson : List (String × Value) → List (String × Json)
  | [] => []
  | (name, v) :: rest => (name, toJson v) :: entriesToJson rest

end

/-- The text of a value. -/
def text : Value → String
  | .bool b => if b then "true" else "false"
  | .int n => toString n.toInt
  | .float x => Number.plainText x
  | .str s => s
  | v => v.toJson.compact

end AccessControl.Value
