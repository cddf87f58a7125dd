import AccessControl.Number.Digits
/-!
# JSON values

A number is kept as its text tells: a token without point and exponent is an integer as long as it
fits 64 bits, signed or unsigned, and a binary64 number otherwise.  Members stand in the order of
the text.
-/

namespace AccessControl

inductive Json where
  | null
  | bool (b : Bool)
  | int (n : Int)
  | float (x : Float)
  | str (s : String)
  | arr (items : List Json)
  | obj (members : List (String × Json))
  deriving Inhabited

namespace Json

/-- The member of that name; the last one when a name occurs twice. -/
def get? (j : Json) (name : String) : Option Json :=
  match j with
  | .obj members => (members.reverse.find? fun m => m.1 == name).map (·.2)
  | _ => none

def bool? : Json → Option Bool
  | .bool b => some b
  | _ => none

def str? : Json → Option String
  | .str s => some s
  | _ => none

/-- A natural number below `2 ^ bits`. -/
def nat? (bits : Nat) : Json → Option Nat
  | .int n => if 0 ≤ n && n < (Number.twoTo bits : Int) then some n.toNat else none
  | _ => none

def arr? : Json → Option (List Json)
  | .arr items => some items
  | _ => none

def obj? : Json → Option (List (String × Json))
  | .obj members => some members
  | _ => none

/-- The members with each name once, in the order of the names; of a name given twice the last
value stays. -/
def insertMember {α : Type} (name : String) (value : α) : List (String × α) → List (String × α)
  | [] => [(name, value)]
  | (n, v) :: rest =>
    if name = n then (name, value) :: rest
    else if name < n then (name, value) :: (n, v) :: rest
    else (n, v) :: insertMember name value rest

end Json

end AccessControl
