import AccessControl.Value.Basic
/-!
# Matcher expressions

The tree of an expression, and the functions it calls in the order in which they are checked: a call
before the calls in its arguments, operands from left to right.
-/

namespace AccessControl

/-- Operators between two operands. -/
inductive BinaryOp where
  | and
  | or
  | eq
  | ne
  | lt
  | le
  | gt
  | ge
  | add
  | sub
  | mul
  | div
  | rem
  deriving Repr, DecidableEq

/-- Operators before one operand. -/
inductive UnaryOp where
  | not
  | neg
  deriving Repr, DecidableEq

/-- The spelling of an operator. -/
def BinaryOp.sign : BinaryOp → String
  | .and => "&&"
  | .or => "||"
  | .eq => "=="
  | .ne => "!="
  | .lt => "<"
  | .le => "<="
  | .gt => ">"
  | .ge => ">="
  | .add => "+"
  | .sub => "-"
  | .mul => "*"
  | .div => "/"
  | .rem => "%"

def UnaryOp.sign : UnaryOp → String
  | .not => "!"
  | .neg => "-"

inductive Expr where
  | literal (v : Value)
  /-- A name bound by the request or the row. -/
  | field (name : String)
  /-- `base.name` -/
  | attr (base : Expr) (name : String)
  | unary (op : UnaryOp) (operand : Expr)
  | binary (op : BinaryOp) (left right : Expr)
  /-- `needle in (item, …)` -/
  | isIn (needle : Expr) (items : List Expr)
  | call (name : String) (args : List Expr)
  deriving Inhabited

namespace Expr

mutual

/-- The names called anywhere in the tree. -/
def calls : Expr → List String
  | .literal _ => []
  | .field _ => []
  | .attr base _ => base.calls
  | .unary _ operand => operand.calls
  | .binary _ left right => left.calls ++ right.calls
  | .isIn needle items => needle.calls ++ callsOf items
  | .call name args => name :: callsOf args

/-- The names called in a list of expressions. -/
def callsOf : List Expr → List String
  | [] => []
  | e :: rest => e.calls ++ callsOf rest

end

end Expr

end AccessControl
