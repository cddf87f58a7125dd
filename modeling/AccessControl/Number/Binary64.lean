import AccessControl.Number.Digits
/-!
# Binary64 numbers as exact rationals

A finite binary64 number is `± m · 2 ^ q` with natural `m`.  This module takes a number apart
(`Binary64.ofFloat`), finds the binary64 number nearest to a quotient (`nearest`, a tie goes to the
even significand), and computes the exact remainder (`remainder`).
-/

namespace AccessControl.Number

/-- The exact value `± significand · 2 ^ exponent` of a finite binary64 number. -/
structure Binary64 where
  /-- The sign bit, set for negative numbers and for negative zero. -/
  negative : Bool
  significand : Nat
  exponent : Int
  deriving Repr, DecidableEq

/-- What the bits of a number stand for. -/
inductive Reading where
  | finite (value : Binary64)
  | infinite (negative : Bool)
  | undefined
  deriving Repr, DecidableEq

/-- Reads sign, exponent and significand off the bits. -/
def Reading.ofBits (bits : UInt64) : Reading :=
  let n := bits.toNat
  let negative := n / twoTo 63 == 1
  let biased : Nat := n / twoTo 52 % twoTo 11
  let fraction : Nat := n % twoTo 52
  if biased = 2047 then
    if fraction = 0 then .infinite negative else .undefined
  else if biased = 0 then .finite ⟨negative, fraction, -1074⟩
  else .finite ⟨negative, fraction + twoTo 52, (biased : Int) - 1075⟩

def Reading.ofFloat (x : Float) : Reading := Reading.ofBits x.toBits

/-- `n / d` rounded to the nearest natural number, a half to the even neighbour. -/
def roundHalfEven (n d : Nat) : Nat :=
  let q := n / d
  let twice := 2 * (n % d)
  if twice < d then q else if d < twice then q + 1 else q + q % 2

/-- `n / d · 2 ^ (- e)` as a quotient of natural numbers. -/
def scaled (n d : Nat) (e : Int) : Nat × Nat :=
  if 0 ≤ e then (n, d * twoTo e.toNat) else (n * twoTo (-e).toNat, d)

/-- The exponent at which `n / d` has a 53-bit significand, not below the least exponent `-1074`. -/
def significandExponent (n d : Nat) : Int :=
  let guess : Int := (n.log2 : Int) - d.log2 - 53
  let (a, b) := scaled n d guess
  max (-1074) (if a / b < twoTo 53 then guess else guess + 1)

/-- The bits of the binary64 number nearest to `± n / d`, infinite when that is too large. -/
def nearestBits (negative : Bool) (n d : Nat) : UInt64 :=
  let sign := if negative then twoTo 63 else 0
  if n = 0 then UInt64.ofNat sign
  else
    let e := significandExponent n d
    let (a, b) := scaled n d e
    let m := roundHalfEven a b
    let magnitude := if m < twoTo 52 then m else (e + 1074).toNat * twoTo 52 + m
    UInt64.ofNat (sign + min magnitude (2047 * twoTo 52))

/-- The binary64 number nearest to `± n / d`. -/
def nearest (negative : Bool) (n d : Nat) : Float := Float.ofBits (nearestBits negative n d)

/-- The binary64 number nearest to the decimal `± digits · 10 ^ exponent`. -/
def ofDecimal (negative : Bool) (digits : Nat) (exponent : Int) : Float :=
  if 0 ≤ exponent then nearest negative (digits * tenTo exponent.toNat) 1
  else nearest negative digits (tenTo (-exponent).toNat)

/-- The exact remainder of the truncating division, with the sign of the dividend.  It is undefined
for an infinite dividend and for the divisor zero. -/
def remainder (x y : Float) : Float :=
  match Reading.ofFloat x, Reading.ofFloat y with
  | .finite a, .finite b =>
    if b.significand = 0 then 0.0 / 0.0
    else
      let e := min a.exponent b.exponent
      let r := a.significand * twoTo (a.exponent - e).toNat %
        (b.significand * twoTo (b.exponent - e).toNat)
      if 0 ≤ e then nearest a.negative (r * twoTo e.toNat) 1
      else nearest a.negative r (twoTo (-e).toNat)
  | .finite _, .infinite _ => x
  | _, _ => 0.0 / 0.0

end AccessControl.Number
