import AccessControl.Number.Digits
/-!
# Showing bytes as text

Bytes that are not UTF-8 can still be shown: every longest start of a character that the next byte
breaks off stands as one replacement character, and so does every byte that starts none.
-/

namespace AccessControl.Text

/-- The character that stands for bytes that are none. -/
def replacement : Char := '\ufffd'

/-- How a character starts: the least and the greatest second byte, and the number of all bytes behind
the first.  Overlong forms, surrogates and numbers past the last character have no second byte. -/
def sequenceOf (b : Nat) : Option (Nat × Nat × Nat) :=
  if 0xC2 ≤ b && b ≤ 0xDF then some (0x80, 0xBF, 1)
  else if b = 0xE0 then some (0xA0, 0xBF, 2)
  else if b = 0xED then some (0x80, 0x9F, 2)
  else if 0xE1 ≤ b && b ≤ 0xEF then some (0x80, 0xBF, 2)
  else if b = 0xF0 then some (0x90, 0xBF, 3)
  else if 0xF1 ≤ b && b ≤ 0xF3 then some (0x80, 0xBF, 3)
  else if b = 0xF4 then some (0x80, 0x8F, 3)
  else none

/-- The bits that the first byte of a character of so many further bytes gives. -/
def leadBits (b count : Nat) : Nat := b % Number.twoTo (6 - count)

/-- Shows bytes.  `open?` holds the bits of a character so far, the bounds of its next byte, and how
many bytes are missing. -/
def showBytes (open? : Option (Nat × Nat × Nat × Nat)) : List UInt8 → List Char
  | [] => if open?.isSome then [replacement] else []
  | byte :: rest =>
    let b := byte.toNat
    let fresh (before : List Char) : List Char :=
      if b < 0x80 then before ++ Char.ofNat b :: showBytes none rest
      else
        match sequenceOf b with
        | some (low, high, count) =>
          before ++ showBytes (some (leadBits b count, low, high, count)) rest
        | none => before ++ replacement :: showBytes none rest
    match open? with
    | none => fresh []
    | some (bits, low, high, missing) =>
      if low ≤ b && b ≤ high then
        let bits := bits * 64 + b % 64
        if missing ≤ 1 then Char.ofNat bits :: showBytes none rest
        else showBytes (some (bits, 0x80, 0xBF, missing - 1)) rest
      else fresh [replacement]

/-- The text that bytes are shown as. -/
def ofBytes (bytes : ByteArray) : String := String.ofList (showBytes none bytes.toList)

end AccessControl.Text
