import AccessControl.Expr.Parsing
import AccessControl.Expr.Portable
import AccessControl.Expr.Reference
import AccessControl.Matcher.Scope
/-!
# Programs

A program is an expression that passed all checks: its text consists of tokens, has no blocked
construct, follows the grammar, and calls only what the scope knows.  The checks run in this order,
and the first that fails is the error.
-/

namespace AccessControl

/-- A checked expression, with the text it was read from. -/
structure Program where
  source : String
  expr : Expr

/-- The programs compiled so far, by their text. -/
abbrev ProgramCache := Table Program

/-- The first call of an expression that the scope does not know. -/
def Scope.unknownCall? (scope : Scope) (e : Expr) : Option String :=
  e.calls.find? fun name => !scope.isCallable name

/-- The expression of a text whose references are single names. -/
def Expr.ofText (source : String) : Except MatcherError Expr :=
  match tokens source with
  | .error e => .error e
  | .ok ts =>
    match checkPortable ts source with
    | .error e => .error e
    | .ok () => Expr.ofTokens ts source.utf8ByteSize

/-- The program of a text whose references are single names. -/
def Program.ofSource (scope : Scope) (source : String) : Except MatcherError Program :=
  match Expr.ofText source with
  | .error e => .error e
  | .ok expr =>
    match scope.unknownCall? expr with
    | some name => .error (.unknownFunction name)
    | none => .ok ⟨source, expr⟩

/-- The program of a text, from the cache when it is there; the program is put there otherwise.
Errors are not remembered. -/
def ProgramCache.compile (cache : ProgramCache) (scope : Scope) (text : String) :
    Except MatcherError Program × ProgramCache :=
  let source := joinReferences text
  match cache.find source with
  | some program => (.ok program, cache)
  | none =>
    match Program.ofSource scope source with
    | .ok program => (.ok program, cache.put source program)
    | .error e => (.error e, cache)

end AccessControl
