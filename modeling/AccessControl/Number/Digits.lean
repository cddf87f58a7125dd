/-!
# Powers, digits and word sizes

Powers of two and ten, the number that digits write, and the bounds of 64-bit integers.
-/

namespace AccessControl.Number

/-- A power of two. -/
def twoTo (n : Nat) : Nat := Nat.pow 2 n

/-- A power of ten. -/
def tenTo (n : Nat) : Nat := Nat.pow 10 n

/-- Whether an integer is one of 64 bits with a sign. -/
def fitsInt64 (n : Int) : Bool := decide (-(twoTo 63 : Int) ≤ n) && decide (n < (twoTo 63 : Int))

/-- The value of a hexadecimal digit. -/
def hexValue? (c : Char) : Option Nat :=
  if '0' ≤ c && c ≤ '9' then some (c.toNat - 48)
  else if 'a' ≤ c && c ≤ 'f' then some (c.toNat - 87)
  else if 'A' ≤ c && c ≤ 'F' then some (c.toNat - 55)
  else none

/-- The number that decimal digits write, after what stands before them. -/
def decimalFrom (before : Nat) (digits : List Char) : Nat :=
  digits.foldl (fun n d => 10 * n + (d.toNat - 48)) before

/-- The number that decimal digits write. -/
def decimalValue (digits : List Char) : Nat := decimalFrom 0 digits

end AccessControl.Number
