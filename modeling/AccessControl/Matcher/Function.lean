import AccessControl.Matching.Predicates
import AccessControl.Table
import AccessControl.Value.Basic
/-!
# Matcher functions

A function takes values to a value or an error.  The table of functions starts with the predicates of
`Matching.Predicates` and the two functions that extract parts of a key; callers add their own.
-/

namespace AccessControl

/-- A function matchers can call. -/
structure MatcherFunction where
  run : List Value → Except MatcherError Value
  /-- Whether the arguments of every call are recorded. -/
  traced : Bool := false

/-- The functions by name. -/
abbrev FunctionTable := Table MatcherFunction

/-- The strings of values that must all be strings. -/
def asStrings (what : String) : List Value → Except MatcherError (List String)
  | [] => .ok []
  | v :: rest =>
    match v.asString what, asStrings what rest with
    | .ok s, .ok more => .ok (s :: more)
    | .error e, _ => .error e
    | _, .error e => .error e

/-- The arguments of a function that takes `count` strings. -/
def stringArguments (name : String) (count : Nat) (args : List Value) :
    Except MatcherError (List String) :=
  if args.length = count then asStrings name args
  else .error (.arity name (toString count) args.length)

namespace MatcherFunction

/-- A function of two strings that holds or does not; errors call it `name`. -/
def ofPredicate (name : String) (holds : String → String → Bool) : MatcherFunction where
  run args :=
    match stringArguments name 2 args with
    | .ok (a :: b :: _) => .ok (.bool (holds a b))
    | .ok _ => .error (.arity name "2" args.length)
    | .error e => .error e

/-- The part of a key that a wildcard covers. -/
def keyGet : MatcherFunction where
  run args :=
    match stringArguments "keyGet" 2 args with
    | .ok (a :: b :: _) => .ok (.str (AccessControl.keyGet a b))
    | .ok _ => .error (.arity "keyGet" "2" args.length)
    | .error e => .error e

/-- The part of a key that a named parameter covers. -/
def keyGet2 : MatcherFunction where
  run args :=
    match stringArguments "keyGet2" 3 args with
    | .ok (a :: b :: c :: _) => .ok (.str (AccessControl.keyGet2 a b c))
    | .ok _ => .error (.arity "keyGet2" "3" args.length)
    | .error e => .error e

end MatcherFunction

/-- The functions every matcher can call from the start. -/
def FunctionTable.builtins : FunctionTable :=
  Predicate.all.map (fun p => (p.name, MatcherFunction.ofPredicate p.name p.holds)) ++
    [("keyGet", .keyGet), ("keyGet2", .keyGet2)]

end AccessControl
