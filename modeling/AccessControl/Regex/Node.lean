import AccessControl.Unicode.PropertyName
/-!
# The parts of a regular expression

A regular expression as it is written.  What its characters and classes stand for depends on the flags
in force, which the text itself may change, so nothing is resolved here.

`Node.depth` counts how deep the parts lie in each other; an expression that is too deep is refused.
-/

namespace AccessControl.Regex

open Unicode

/-- What changes the meaning of the text behind it. -/
inductive Flag where
  | ignoreCase
  | multiLine
  | dotAll
  | swapGreed
  | unicode
  | crlf
  /-- Blanks and comments between the parts of the text are skipped. -/
  | extended
  deriving Repr, DecidableEq

/-- Flags with the values they are set to, in the order of the text. -/
abbrev FlagChanges := List (Flag × Bool)

/-- A character that stands for itself. -/
structure Literal where
  char : Char
  /-- Whether it was given as a byte, by two hexadecimal digits. -/
  asByte : Bool := false
  deriving Repr, DecidableEq

/-- What `d`, `s` and `w` stand for behind a backslash. -/
inductive CommonSet where
  | digit
  | space
  | word
  deriving Repr, DecidableEq

/-- The operators between the operands of a class. -/
inductive SetOperator where
  | inter
  | diff
  | symmDiff
  deriving Repr, DecidableEq

/-- What stands between the brackets of a class. -/
inductive ClassNode where
  | empty
  | literal (l : Literal)
  | range (first last : Literal)
  /-- A set between `[:` and `:]`. -/
  | ascii (set : CharSet) (negated : Bool)
  | common (set : CommonSet) (negated : Bool)
  | property (query : PropertyQuery) (negated : Bool)
  | bracket (negated : Bool) (body : ClassNode)
  | union (items : List ClassNode)
  | operation (op : SetOperator) (left right : ClassNode)
  deriving Repr

/-- What is asserted of a position. -/
inductive Assertion where
  | lineStart
  | lineEnd
  | textStart
  | textEnd
  | wordBoundary
  | notWordBoundary
  | wordStart
  | wordEnd
  /-- No word character before. -/
  | wordStartHalf
  /-- No word character behind. -/
  | wordEndHalf
  deriving Repr, DecidableEq

inductive Node where
  | empty
  | flags (changes : FlagChanges)
  | literal (l : Literal)
  | dot
  | assertion (a : Assertion)
  | common (set : CommonSet) (negated : Bool)
  | property (query : PropertyQuery) (negated : Bool)
  | bracket (negated : Bool) (body : ClassNode)
  /-- At least `min` times, and at most `max` times if there is a bound. -/
  | times (min : Nat) (max : Option Nat) (greedy : Bool) (body : Node)
  /-- A group, with its number if it is remembered, and flags for its body. -/
  | group (index : Option Nat) (changes : FlagChanges) (body : Node)
  | concat (items : List Node)
  | alternation (items : List Node)
  deriving Repr

/-! ## Depth -/

mutual

def ClassNode.depth : ClassNode → Nat
  | .bracket _ body => body.depth + 1
  | .union items => ClassNode.depths items + 1
  | .operation _ left right => max left.depth right.depth + 1
  | _ => 0

/-- The greatest depth among nodes. -/
def ClassNode.depths : List ClassNode → Nat
  | [] => 0
  | item :: rest => max item.depth (depths rest)

end

mutual

def Node.depth : Node → Nat
  | .bracket _ body => body.depth + 1
  | .times _ _ _ body => body.depth + 1
  | .group _ _ body => body.depth + 1
  | .concat items => Node.depths items + 1
  | .alternation items => Node.depths items + 1
  | _ => 0

/-- The greatest depth among nodes. -/
def Node.depths : List Node → Nat
  | [] => 0
  | item :: rest => max item.depth (depths rest)

end

/-- Nodes in a row as one node. -/
def Node.ofItems : List Node → Node
  | [] => .empty
  | [item] => item
  | items => .concat items

/-- Nodes of which one is chosen as one node. -/
def Node.ofBranches : List Node → Node
  | [branch] => branch
  | branches => .alternation branches

/-- The members of a class as one node. -/
def ClassNode.ofItems : List ClassNode → ClassNode
  | [] => .empty
  | [item] => item
  | items => .union items

end AccessControl.Regex
