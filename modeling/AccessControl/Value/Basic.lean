import AccessControl.Error
/-!
# Values of matcher expressions

What requests are made of and what expressions compute.  Policy rows are strings; structured values
come only from requests.

* `Value.beq`      equality inside one kind, entry by entry in lists and maps
* `Value.looseEq`  the same, and a number equals a number of the other numeric kind
* `Value.compare`  order of numbers and of strings
-/

namespace AccessControl

/-- A value.  The entries of a map stand in the order of their names, each name once. -/
inductive Value where
  | bool (b : Bool)
  | int (n : Int64)
  | float (x : Float)
  | str (s : String)
  | list (items : List Value)
  | map (entries : List (String × Value))
  deriving Inhabited

namespace Value

def kind : Value → Kind
  | .bool _ => .bool
  | .int _ => .int
  | .float _ => .float
  | .str _ => .string
  | .list _ => .list
  | .map _ => .map

/-! ## Views that can fail -/

/-- The string, or an error that names what should have been one. -/
def asString (what : String) : Value → Except MatcherError String
  | .str s => .ok s
  | v => .error (.type (.notString what v.kind))

def asBool : Value → Except MatcherError Bool
  | .bool b => .ok b
  | _ => .error .notBoolean

/-- The number as a binary64 number, for arithmetic across the numeric kinds. -/
def asFloat? : Value → Option Float
  | .int n => some n.toFloat
  | .float x => some x
  | _ => none

/-- The entry of a map. -/
def member (field : String) : Value → Except MatcherError Value
  | .map entries =>
    match entries.find? fun e => e.1 == field with
    | some e => .ok e.2
    | none => .error (.unbound ("." ++ field))
  | v => .error (.type (.noAttributes field v.kind))

/-! ## Equality and order -/

mutual

/-- Equality inside one kind.  Floats compare as numbers do: NaN differs from itself. -/
def beq : Value → Value → Bool
  | .bool a, .bool b => a == b
  | .int a, .int b => a == b
  | .float a, .float b => a == b
  | .str a, .str b => a == b
  | .list a, .list b => beqItems a b
  | .map a, .map b => beqEntries a b
  | _, _ => false

def beqItems : List Value → List Value → Bool
  | [], [] => true
  | a :: as, b :: bs => beq a b && beqItems as bs
  | _, _ => false

def beqEntries : List (String × Value) → List (String × Value) → Bool
  | [], [] => true
  | (k, a) :: as, (l, b) :: bs => k == l && beq a b && beqEntries as bs
  | _, _ => false

end

instance : BEq Value := ⟨beq⟩

/-- Equality that lets an integer equal a float, at the top level only. -/
def looseEq : Value → Value → Bool
  | .int a, .float b => a.toFloat == b
  | .float a, .int b => a == b.toFloat
  | a, b => a == b

/-- The order of integers, of strings by code point, and of numbers as floats when the kinds
differ.  NaN has no place in it. -/
def compare : Value → Value → Except MatcherError Ordering
  | .int a, .int b => .ok (Ord.compare a.toInt b.toInt)
  | .str a, .str b => .ok (if a < b then .lt else if a = b then .eq else .gt)
  | a, b =>
    match a.asFloat?, b.asFloat? with
    | some x, some y =>
      if x < y then .ok .lt
      else if x == y then .ok .eq
      else if y < x then .ok .gt
      else .error (.type .undefinedOrder)
    | _, _ => .error (.type (.unordered a.kind b.kind))

end Value

end AccessControl
