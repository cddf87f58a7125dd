import AccessControl.Unicode.CharSet
/-!
# Sets written as text

The tables of the Unicode standard are kept as text.  A range is two numbers in letters, of base 26:
in small letters how far its first code point is from the end of the range before, and in capitals
how far its last one is from its first.  A decimal number before a range repeats it.

    cnZgZ      from `41` to `5A`, and from `61` to `7A`: 65 code points are left out and 26 taken,
               6 left out and 26 taken
    3bA        one left out and one taken, three times
-/

namespace AccessControl.Unicode

/-- A table read so far. -/
structure RangeText where
  /-- The code point behind the last range. -/
  next : Nat := 0
  /-- The numbers of the range being read; `count` is 0 if none is written. -/
  count : Nat := 0
  gap : Nat := 0
  length : Nat := 0
  /-- Whether the capitals of the range have begun. -/
  inLength : Bool := false
  /-- The ranges read, the last one first. -/
  ranges : List CharRange := []

namespace RangeText

/-- Takes a range of `length + 1` code points behind a gap, so many times. -/
def take (gap length : Nat) : Nat → Nat → List CharRange → Nat × List CharRange
  | 0, next, ranges => (next, ranges)
  | n + 1, next, ranges =>
    let first := next + gap
    take gap length n (first + length + 1) (⟨first, first + length⟩ :: ranges)

/-- Takes the range being read if it is complete. -/
def finish (t : RangeText) : RangeText :=
  if t.inLength then
    let (next, ranges) := take t.gap t.length (max t.count 1) t.next t.ranges
    { next, ranges }
  else t

/-- Reads one character. -/
def step (t : RangeText) (c : Char) : RangeText :=
  if 'A' ≤ c && c ≤ 'Z' then
    { t with inLength := true, length := 26 * t.length + (c.toNat - 65) }
  else
    let t := t.finish
    if 'a' ≤ c && c ≤ 'z' then { t with gap := 26 * t.gap + (c.toNat - 97) }
    else { t with count := 10 * t.count + (c.toNat - 48) }

/-- The set that lines of a table write. -/
def decode (lines : List String) : CharSet :=
  let t : RangeText := lines.foldl (fun t (line : String) => line.toList.foldl step t) {}
  ⟨t.finish.ranges.reverse⟩

end RangeText

end AccessControl.Unicode
