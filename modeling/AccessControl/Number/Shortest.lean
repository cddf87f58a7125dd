import AccessControl.Number.Binary64
import AccessControl.Number.Digits
/-!
# The fewest decimal digits that read back

Every decimal number strictly between the midpoints around a binary64 number reads back as that
number; the midpoints themselves do when the significand is even.  `shortest` finds the coarsest
power of ten with a multiple in that interval, and on it the multiple nearest to the number.  Two
neighbours on such a grid suffice: if any multiple lies in the interval, one next to the number does.
-/

namespace AccessControl.Number

/-- The decimal number `0.d₁d₂… · 10 ^ point`, `digits` being `d₁d₂…` read as one number. -/
structure Digits where
  digits : Nat
  /-- The place of the decimal point, counted from the left of the digits. -/
  point : Int
  deriving Repr, DecidableEq

/-- The interval of reals that read back as one number, in units of `1 / unit`. -/
structure Interval where
  value : Nat
  low : Nat
  high : Nat
  unit : Nat
  /-- Whether the ends themselves read back. -/
  closed : Bool

/-- The interval around `m · 2 ^ q`.  Below a power of two the neighbour is only half as far. -/
def Interval.around (m : Nat) (q : Int) : Interval :=
  let below := if m = twoTo 52 && decide (-1074 < q) then 1 else 2
  let up := (q - 2).toNat
  ⟨4 * m * twoTo up, (4 * m - below) * twoTo up, (4 * m + 2) * twoTo up, twoTo (2 - q).toNat, m % 2 == 0⟩

/-- Whether the rational `n / d` lies in the interval. -/
def Interval.contains (i : Interval) (n d : Nat) : Bool :=
  let x := n * i.unit
  if i.closed then decide (i.low * d ≤ x) && decide (x ≤ i.high * d)
  else decide (i.low * d < x) && decide (x < i.high * d)

/-- The multiple of `num / den` nearest to the number, if it lies in the interval. -/
def Interval.onGrid (i : Interval) (tieUp : Bool) (num den : Nat) : Option Nat :=
  let a := i.value * den
  let b := i.unit * num
  let k := a / b
  let inside (j : Nat) : Bool := i.contains (j * num) den
  let twice := 2 * (a % b)
  let upper := if tieUp then decide (b ≤ twice) else decide (b < twice) || (twice == b && k % 2 == 1)
  if inside k && inside (k + 1) then some (if upper then k + 1 else k)
  else if inside k then some k
  else if inside (k + 1) then some (k + 1)
  else none

/-- Tries the grids `10 ^ e`, `10 ^ (e - 1)`, … and keeps the first that has a hit. -/
def Interval.search (i : Interval) (tieUp : Bool) : Nat → Int → Nat × Int
  | 0, e => (0, e)
  | fuel + 1, e =>
    let hit := if 0 ≤ e then i.onGrid tieUp (tenTo e.toNat) 1 else i.onGrid tieUp 1 (tenTo (-e).toNat)
    match hit with
    | some k => if k = 0 then i.search tieUp fuel (e - 1) else (k, e)
    | none => i.search tieUp fuel (e - 1)

/-- The number of decimal digits. -/
def digitCount (n : Nat) : Nat := (Nat.toDigits 10 n).length

/-- Drops the zeros at the end, counting them into the exponent. -/
def stripZeros : Nat → Nat → Int → Nat × Int
  | 0, n, e => (n, e)
  | fuel + 1, n, e => if n % 10 = 0 && n ≠ 0 then stripZeros fuel (n / 10) (e + 1) else (n, e)

/-- The shortest digits of `m · 2 ^ q`; `tieUp` says which of two equally near ones to take, the
even one otherwise.  Zero has no digits but one zero. -/
def shortest (tieUp : Bool) (m : Nat) (q : Int) : Digits :=
  if m = 0 then ⟨0, 1⟩
  else
    let i := Interval.around m q
    -- 10 ^ start is above the number
    let start : Int := ((m.log2 : Int) + q + 1) * 30103 / 100000 + 2
    let (k, e) := i.search tieUp 30 start
    let (k, e) := stripZeros 20 k e
    ⟨k, e + digitCount k⟩

end AccessControl.Number
