import AccessControl.Regex.Matching
import AccessControl.Regex.Meaning
import AccessControl.Regex.Reading
import AccessControl.Regex.Size
/-!
# From text to pattern

A text has a pattern if it is a regular expression, if its parts do not lie too deep in each other,
if what it names exists, and if its automata are not too large.

The texts that have a pattern are those that regex 1.10, and later versions before 2, take with their usual
settings: regex-syntax 0.8 with the tables of Unicode 16 for what is read, regex-automata 0.4 for the size, which
is counted for targets with words of 64 bits (`Regex.Size`).
-/

namespace AccessControl.Regex

/-- How deep the parts of an expression may lie in each other. -/
def depthLimit : Nat := 250

/-- The pattern of a text that is a regular expression. -/
def Pattern.ofText? (text : String) : Option Pattern := do
  let node ← Node.ofText? text.toList
  if node.depth ≤ depthLimit then
    let pattern ← node.pattern?
    if pattern.fits then some pattern else none
  else none

end AccessControl.Regex
