import AccessControl.Matcher.Program
import AccessControl.Value.Arithmetic
/-!
# Evaluating programs

Operands are evaluated from left to right, `&&` and `||` only as far as needed, and all arguments
before a call.  `eval` compiles the text in its argument and evaluates it in the same scope, up to
`maxEvalDepth` levels of one inside the other; `Expr.evalAt` descends one level of a bounded number,
`Expr.evalWith` is the part that follows the tree.
-/

namespace AccessControl

/-- What evaluation adds to: compiled programs, and the arguments of the traced calls in order. -/
structure EvalState where
  programs : ProgramCache := []
  trace : List (List Value) := []

/-- A computation that can fail and keeps its state when it does. -/
abbrev EvalM := ExceptT MatcherError (StateM EvalState)

/-- The levels of `eval` inside `eval`. -/
def maxEvalDepth : Nat := 8

/-- Takes over a result that needs no state. -/
def EvalM.lift {α : Type} (r : Except MatcherError α) : EvalM α :=
  match r with
  | .ok a => pure a
  | .error e => throw e

/-- Compiles a text with the programs at hand. -/
def EvalM.compile (scope : Scope) (text : String) : EvalM Program := do
  let state ← get
  let (result, programs) := state.programs.compile scope text
  set { state with programs }
  EvalM.lift result

/-- The result of an operator between two values. -/
def BinaryOp.apply (op : BinaryOp) (a b : Value) : Except MatcherError Value :=
  let ordered (test : Ordering → Bool) : Except MatcherError Value :=
    (a.compare b).map fun o => .bool (test o)
  match op with
  | .eq => .ok (.bool (a.looseEq b))
  | .ne => .ok (.bool (!a.looseEq b))
  | .lt => ordered (· == .lt)
  | .le => ordered (· != .gt)
  | .gt => ordered (· == .gt)
  | .ge => ordered (· != .lt)
  | .add => a.add b
  | .sub => a.arith "-" b
  | .mul => a.arith "*" b
  | .div => a.arith "/" b
  | .rem => a.arith "%" b
  | .and => do .ok (.bool ((← a.asBool) && (← b.asBool)))
  | .or => do .ok (.bool ((← a.asBool) || (← b.asBool)))

/-- Whether a value is among the items; a single list stands for its own items. -/
def Value.isAmong (needle : Value) : List Value → Bool
  | [.list inner] => inner.any (·.looseEq needle)
  | items => items.any (·.looseEq needle)

namespace Expr

mutual

/-- The value of an expression under a meaning of its names and its calls. -/
def evalWith (lookup : String → Option Value) (call : String → List Value → EvalM Value) :
    Expr → EvalM Value
  | .literal v => pure v
  | .field name =>
    match lookup name with
    | some v => pure v
    | none => throw (.unbound name)
  | .attr base name => do
    let v ← evalWith lookup call base
    EvalM.lift (v.member name)
  | .unary .not operand => do
    let v ← evalWith lookup call operand
    let b ← EvalM.lift v.asBool
    pure (.bool !b)
  | .unary .neg operand => do
    let v ← evalWith lookup call operand
    EvalM.lift v.negate
  | .binary .and left right => do
    let a ← evalWith lookup call left
    let a ← EvalM.lift a.asBool
    if a then
      let b ← evalWith lookup call right
      let b ← EvalM.lift b.asBool
      pure (.bool b)
    else pure (.bool false)
  | .binary .or left right => do
    let a ← evalWith lookup call left
    let a ← EvalM.lift a.asBool
    if a then pure (.bool true)
    else
      let b ← evalWith lookup call right
      let b ← EvalM.lift b.asBool
      pure (.bool b)
  | .binary op left right => do
    let a ← evalWith lookup call left
    let b ← evalWith lookup call right
    EvalM.lift (op.apply a b)
  | .isIn needle items => do
    let v ← evalWith lookup call needle
    let vs ← evalAll lookup call items
    pure (.bool (v.isAmong vs))
  | .call name args => do
    let vs ← evalAll lookup call args
    call name vs

/-- The values of expressions, from left to right. -/
def evalAll (lookup : String → Option Value) (call : String → List Value → EvalM Value) :
    List Expr → EvalM (List Value)
  | [] => pure []
  | e :: rest => do
    let v ← evalWith lookup call e
    let vs ← evalAll lookup call rest
    pure (v :: vs)

end

end Expr

/-- The answer of a role definition: whether the first argument has the role that is the second, in
the domain that is the third. -/
def RoleManager.answer (m : RoleManager) (name : String) (args : List Value) :
    Except MatcherError Value :=
  match args with
  | [user, role] => do
    let user ← user.asString name
    let role ← role.asString name
    .ok (.bool (m.hasLink user role none))
  | [user, role, domain] => do
    let user ← user.asString name
    let role ← role.asString name
    let domain ← domain.asString name
    .ok (.bool (m.hasLink user role (some domain)))
  | _ => .error (.arity name "2 or 3" args.length)

/-- Calls a name; `evalText` is the meaning of `eval` on its argument. -/
def Scope.call (scope : Scope) (evalText : Value → EvalM Value) (name : String)
    (args : List Value) : EvalM Value :=
  if name = "eval" then
    match args with
    | [v] => evalText v
    | _ => throw (.arity "eval" "1" args.length)
  else
    match scope.managers.find name with
    | some m => EvalM.lift (m.answer name args)
    | none =>
      match scope.functions.find name with
      | some f => do
        if f.traced then modify fun s => { s with trace := s.trace ++ [args] }
        EvalM.lift (f.run args)
      | none => throw (.unknownFunction name)

/-- The value of an expression in which `levels` more levels of `eval` are allowed. -/
def Expr.evalAt (scope : Scope) (bindings : Bindings) : Nat → Expr → EvalM Value
  | 0, e => e.evalWith bindings.lookup (scope.call fun _ => throw (.type (.evalTooDeep maxEvalDepth)))
  | levels + 1, e =>
    e.evalWith bindings.lookup (scope.call fun v => do
      let text ← EvalM.lift (v.asString "eval argument")
      let program ← EvalM.compile scope text
      let result ← program.expr.evalAt scope bindings levels
      let b ← EvalM.lift result.asBool
      pure (.bool b))

/-- The truth value of a program. -/
def Program.evaluate (program : Program) (scope : Scope) (bindings : Bindings) : EvalM Bool := do
  let v ← program.expr.evalAt scope bindings maxEvalDepth
  EvalM.lift v.asBool

/-- The truth value of a text. -/
def evaluateText (scope : Scope) (bindings : Bindings) (text : String) : EvalM Bool := do
  let program ← EvalM.compile scope text
  program.evaluate scope bindings

end AccessControl
