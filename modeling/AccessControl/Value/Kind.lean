/-!
# Kinds of values

The six kinds of value a matcher works with, and the names error messages and cache keys use for
them.
-/

namespace AccessControl

/-- The kind of a matcher value. -/
inductive Kind where
  | bool
  | int
  | float
  | string
  | list
  | map
  deriving Repr, DecidableEq

/-- The name of a kind. -/
def Kind.name : Kind → String
  | .bool => "bool"
  | .int => "int"
  | .float => "float"
  | .string => "string"
  | .list => "list"
  | .map => "map"

end AccessControl
