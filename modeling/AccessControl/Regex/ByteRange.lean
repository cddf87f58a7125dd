import AccessControl.Unicode.CharSet
/-!
# Ranges of bytes

The characters of a range written in UTF-8 are the rows of bytes in which every byte lies in a range of
its own, for a few rows of such byte ranges.  `byteRows` lists them in ascending order.
-/

namespace AccessControl.Regex

/-- The bytes from the first to the last one. -/
structure ByteRange where
  first : Nat
  last : Nat
  deriving Repr, DecidableEq

/-- The UTF-8 bytes of a code point. -/
def utf8Bytes (n : Nat) : List Nat :=
  let tail (n : Nat) : Nat := 0x80 + n % 64
  if n < 0x80 then [n]
  else if n < 0x800 then [0xC0 + n / 64, tail n]
  else if n < 0x10000 then [0xE0 + n / 4096, tail (n / 64), tail n]
  else [0xF0 + n / 262144, tail (n / 4096), tail (n / 64), tail n]

/-- The last code points of one, two and three bytes. -/
def lastOfLength : List Nat := [0x7F, 0x7FF, 0xFFFF]

/-- How many code points share all bytes but the last one, two and three. -/
def blockSizes : List Nat := [64, 4096, 262144]

/-- The code point before which a range of code points of one length must be cut, so that a block is
either covered or not touched. -/
def cutInBlock? (first last block : Nat) : Option Nat :=
  if first / block = last / block then none
  else if first % block ≠ 0 then some (first / block * block + block)
  else if last % block + 1 ≠ block then some (last / block * block)
  else none

/-- The code point before which a range must be cut. -/
def cut? (first last : Nat) : Option Nat :=
  match lastOfLength.find? fun n => first ≤ n && n < last with
  | some n => some (n + 1)
  | none => if last < 0x80 then none else blockSizes.findSome? (cutInBlock? first last)

/-- The rows of byte ranges of a range of code points, which is cut as often as `fuel` allows. -/
def byteRowsWithin : Nat → Nat → Nat → List (List ByteRange)
  | 0, _, _ => []
  | fuel + 1, first, last =>
    if first < 0xE000 && 0xD7FF < last then
      byteRowsWithin fuel first 0xD7FF ++ byteRowsWithin fuel 0xE000 last
    else if last < first then []
    else
      match cut? first last with
      | some n => byteRowsWithin fuel first (n - 1) ++ byteRowsWithin fuel n last
      | none => [List.zipWith ByteRange.mk (utf8Bytes first) (utf8Bytes last)]

/-- The rows of byte ranges of a set. -/
def byteRows (s : CharSet) : List (List ByteRange) :=
  s.ranges.flatMap fun r => byteRowsWithin 32 r.first r.last

end AccessControl.Regex
