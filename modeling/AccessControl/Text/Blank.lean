/-!
# White space

The characters with the Unicode property `White_Space`, and stripping them from the ends of a text.
Policy fields, model text and network addresses are all stripped by this one rule.
-/

namespace AccessControl.Text

/-- A character with the Unicode property `White_Space`. -/
def isBlank (c : Char) : Bool :=
  let n := c.toNat
  (9 ≤ n && n ≤ 13) || n == 0x20 || n == 0x85 || n == 0xA0 || n == 0x1680 ||
    (0x2000 ≤ n && n ≤ 0x200A) || n == 0x2028 || n == 0x2029 || n == 0x202F || n == 0x205F ||
    n == 0x3000

/-- Drops the blanks a list of characters starts with. -/
def dropBlanks (cs : List Char) : List Char := cs.dropWhile isBlank

/-- Drops the blanks a list of characters ends with. -/
def dropBlanksEnd (cs : List Char) : List Char := (dropBlanks cs.reverse).reverse

/-- The text without the blanks at either end. -/
def trim (s : String) : String := String.ofList (dropBlanksEnd (dropBlanks s.toList))

/-- Removes every blank, also those inside the text. -/
def removeBlanks (s : String) : String := String.ofList (s.toList.filter fun c => !isBlank c)

end AccessControl.Text
