import AccessControl.Matcher.Function
import AccessControl.Roles.Manager
/-!
# Scopes and bindings

A scope is what the calls of an expression can mean: `eval`, the role definitions, and the registered
functions, tried in this order.  The bindings are what its names mean: the fields of the request and
of one policy row.
-/

namespace AccessControl

/-- The meaning of calls. -/
structure Scope where
  functions : FunctionTable
  managers : RoleManagers

/-- Whether a name may be called. -/
def Scope.isCallable (scope : Scope) (name : String) : Bool :=
  name == "eval" || scope.managers.contains name || scope.functions.contains name

/-- The meaning of names. -/
structure Bindings where
  requestFields : List String
  request : List Value
  rowFields : List String
  row : List String

/-- The value of a name.  Fields of the request come first; one without a value is unbound.  Fields
past the end of the row are empty strings. -/
def Bindings.lookup (b : Bindings) (name : String) : Option Value :=
  match b.requestFields.idxOf? name with
  | some i => b.request[i]?
  | none => (b.rowFields.idxOf? name).map fun i => .str (b.row[i]?.getD "")

end AccessControl
