import AccessControl.Number.Binary64
import AccessControl.Number.Digits
import AccessControl.Value.Basic
/-!
# Arithmetic on values

Two integers stay integers, and a result that does not fit 64 bits is an error, but for a change of sign
(`Value.negate`).  A float on either side makes the operation one on floats, which never fails.  `+` also
joins strings.
-/

namespace AccessControl

/-- The operators between numbers besides `+`. -/
inductive Arithmetic where
  | sub
  | mul
  | div
  | rem
  deriving Repr, DecidableEq

namespace Arithmetic

def sign : Arithmetic → String
  | .sub => "-"
  | .mul => "*"
  | .div => "/"
  | .rem => "%"

def ofSign? : String → Option Arithmetic
  | "-" => some .sub
  | "*" => some .mul
  | "/" => some .div
  | "%" => some .rem
  | _ => none

/-- The exact result on integers; quotients are cut towards zero, and there is none by zero.  A
remainder exists where the quotient fits. -/
def onInts? (op : Arithmetic) (a b : Int64) : Option Int64 :=
  let checked (n : Int) : Option Int64 := if Number.fitsInt64 n then some (Int64.ofInt n) else none
  match op with
  | .sub => checked (a.toInt - b.toInt)
  | .mul => checked (a.toInt * b.toInt)
  | .div => if b = 0 then none else checked (a.toInt.tdiv b.toInt)
  | .rem =>
    if b = 0 || !Number.fitsInt64 (a.toInt.tdiv b.toInt) then none else checked (a.toInt.tmod b.toInt)

def onFloats (op : Arithmetic) (x y : Float) : Float :=
  match op with
  | .sub => x - y
  | .mul => x * y
  | .div => x / y
  | .rem => Number.remainder x y

end Arithmetic

namespace Value

/-- An operation on floats, for the error of which `sign` stands. -/
def withFloats (sign : String) (op : Float → Float → Float) (a b : Value) :
    Except MatcherError Value :=
  match a.asFloat?, b.asFloat? with
  | some x, some y => .ok (.float (op x y))
  | _, _ => .error (.type (.undefinedOperation sign a.kind b.kind))

/-- The sum of numbers, or one string after the other. -/
def add : Value → Value → Except MatcherError Value
  | .int a, .int b =>
    let n := a.toInt + b.toInt
    if Number.fitsInt64 n then .ok (.int (Int64.ofInt n)) else .error (.type .overflow)
  | .str a, .str b => .ok (.str (a ++ b))
  | a, b => withFloats "+" (· + ·) a b

/-- The operation an operator sign names. -/
def arith (sign : String) : Value → Value → Except MatcherError Value
  | .int a, .int b =>
    match (Arithmetic.ofSign? sign).bind fun op => op.onInts? a b with
    | some n => .ok (.int n)
    | none => .error (.type (.integerOperation sign))
  | a, b =>
    match Arithmetic.ofSign? sign with
    | some op => withFloats sign op.onFloats a b
    | none => .error (.type (.unknownOperator sign))

/-- The number with the other sign.  It is the one operation on integers that is not checked: the smallest
integer wraps around to itself, as in a release build, where a build with overflow checks would stop. -/
def negate : Value → Except MatcherError Value
  | .int n => .ok (.int (-n))
  | .float x => .ok (.float (-x))
  | v => .error (.type (.notNegatable v.kind))

end Value

end AccessControl
