import AccessControl.Matching.KeyPattern
import AccessControl.Text.Slice
/-!
# Wildcards by offsets

`keyMatch` and `keyGet` by the offset of the star: it is found in the pattern and then used in the key, where it
may be inside a character or past the end.

* `keyMatchAt`     the heads of both texts, where they have one, are compared
* `keyGetAt`       the key is cut at the offset once its head is known to be the pattern's
-/

namespace AccessControl

open Text

/-- The offset of the star of a pattern. -/
def starOffset? (pattern : String) : Option Nat := offsetOf? (· == '*') pattern

/-- Whether a key matches a pattern.  A key longer than the head of the pattern is compared up to the star,
a shorter one as a whole. -/
def keyMatchAt (key pattern : String) : Bool :=
  match starOffset? pattern with
  | none => key == pattern
  | some i =>
    if i < key.utf8ByteSize then upTo? key i == upTo? pattern i
    else some key == upTo? pattern i

/-- The part of a key that the star covers. -/
def keyGetAt (key pattern : String) : Except BadCut String :=
  match starOffset? pattern with
  | none => .ok ""
  | some i =>
    match upTo? key i, upTo? pattern i with
    | some start, some head => if i < key.utf8ByteSize ∧ start = head then sliceFrom key i else .ok ""
    | _, _ => .ok ""

end AccessControl
