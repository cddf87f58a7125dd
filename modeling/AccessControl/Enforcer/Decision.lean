import AccessControl.Model.Definition
/-!
# Decisions

What is asked for besides the values of a request, and what is answered.
-/

namespace AccessControl

/-- The names of the definitions that take part in a decision. -/
structure Context where
  request : String := "r"
  policy : String := "p"
  effect : String := "e"
  matcher : String := "m"
  deriving Repr, DecidableEq

/-- The definitions whose names end in a suffix. -/
def Context.ofSuffix (suffix : String) : Context :=
  ⟨"r" ++ suffix, "p" ++ suffix, "e" ++ suffix, "m" ++ suffix⟩

/-- A verdict, with the row that decided it if one did. -/
structure Decision where
  allowed : Bool := false
  explain : List Row := []
  deriving Repr, DecidableEq

end AccessControl
