import AccessControl.Regex.Node
import AccessControl.Regex.Pattern
import AccessControl.Unicode.CaseFolding
/-!
# What regular expressions mean

`Node.pattern?` resolves the flags of an expression.  Flags inside a group hold up to its end, across
alternatives too.  Without Unicode classes only ASCII sets can be named, and a set has no complement,
which would hold more than characters.
-/

namespace AccessControl.Regex

/-- The flags in force at a place of the text. -/
structure Flags where
  ignoreCase : Bool := false
  multiLine : Bool := false
  dotAll : Bool := false
  swapGreed : Bool := false
  unicode : Bool := true
  crlf : Bool := false
  deriving Repr, DecidableEq

namespace Flags

/-- The flags with one set to a value.  What is skipped in the text has been skipped. -/
def set (f : Flags) (flag : Flag) (value : Bool) : Flags :=
  match flag with
  | .ignoreCase => { f with ignoreCase := value }
  | .multiLine => { f with multiLine := value }
  | .dotAll => { f with dotAll := value }
  | .swapGreed => { f with swapGreed := value }
  | .unicode => { f with unicode := value }
  | .crlf => { f with crlf := value }
  | .extended => f

def change (f : Flags) (changes : FlagChanges) : Flags :=
  changes.foldl (fun f (flag, value) => f.set flag value) f

/-! ## Sets -/

/-- The set with the characters of other case added where case is ignored. -/
def fold (f : Flags) (s : CharSet) : CharSet :=
  if f.ignoreCase then (if f.unicode then s.anyCase else s.anyAsciiCase) else s

/-- A set, or its complement if there is one. -/
def orCompl? (f : Flags) (negated : Bool) (s : CharSet) : Option CharSet :=
  if negated then (if f.unicode then some s.compl else none) else some s

/-- A set as it is meant: case is ignored before the complement is taken. -/
def resolve? (f : Flags) (negated : Bool) (s : CharSet) : Option CharSet :=
  f.orCompl? negated (f.fold s)

/-- The sets of `d`, `s` and `w`, which hold all cases of their letters. -/
def common? (f : Flags) (set : CommonSet) (negated : Bool) : Option CharSet :=
  f.orCompl? negated <|
    match set, f.unicode with
    | .digit, true => Unicode.decimalDigits
    | .space, true => Unicode.blanks
    | .word, true => Unicode.wordChars
    | .digit, false => .range '0' '9'
    | .space, false => CharSet.unions [.range '\t' '\r', .single ' ']
    | .word, false =>
      CharSet.unions [.range '0' '9', .range 'A' 'Z', .single '_', .range 'a' 'z']

def property? (f : Flags) (query : Unicode.PropertyQuery) (negated : Bool) : Option CharSet :=
  if f.unicode then query.set?.bind (f.resolve? negated) else none

/-- The character of a literal.  A byte past ASCII is no character unless classes are Unicode. -/
def char? (f : Flags) (l : Literal) : Option Char :=
  if !f.unicode && l.asByte && 128 ≤ l.char.toNat then none else some l.char

/-- The character of a literal inside a class. -/
def member? (f : Flags) (l : Literal) : Option Char :=
  if !f.unicode && 128 ≤ l.char.toNat then none else some l.char

end Flags

/-- The result of an operator. -/
def SetOperator.apply : SetOperator → CharSet → CharSet → CharSet
  | .inter => .inter
  | .diff => .diff
  | .symmDiff => .symmDiff

mutual

/-- The set a class holds; case is ignored on either side of an operator. -/
def ClassNode.set? (f : Flags) : ClassNode → Option CharSet
  | .empty => some .empty
  | .literal l => (f.member? l).map .single
  | .range first last => do return .range (← f.member? first) (← f.member? last)
  | .ascii s negated => f.resolve? negated s
  | .common s negated => f.common? s negated
  | .property query negated => f.property? query negated
  | .bracket negated body => do f.resolve? negated (← body.set? f)
  | .union items => (ClassNode.sets? f items).map CharSet.unions
  | .operation op left right => do
    return op.apply (f.fold (← left.set? f)) (f.fold (← right.set? f))

/-- The sets of members. -/
def ClassNode.sets? (f : Flags) : List ClassNode → Option (List CharSet)
  | [] => some []
  | item :: rest => do
    let set ← item.set? f
    let sets ← ClassNode.sets? f rest
    return set :: sets

end

namespace Flags

/-- The characters a dot stands for; those that end lines only where it may stand for all. -/
def dot? (f : Flags) : Option CharSet :=
  if !f.unicode then none
  else if f.dotAll then some .all
  else if f.crlf then some (CharSet.unions [.single '\n', .single '\r']).compl
  else some (CharSet.single '\n').compl

def look (f : Flags) : Assertion → Look
  | .lineStart => if f.multiLine then .lineStart f.crlf else .textStart
  | .lineEnd => if f.multiLine then .lineEnd f.crlf else .textEnd
  | .textStart => .textStart
  | .textEnd => .textEnd
  | .wordBoundary => .wordBoundary f.unicode
  | .notWordBoundary => .notWordBoundary f.unicode
  | .wordStart => .wordStart f.unicode
  | .wordEnd => .wordEnd f.unicode
  | .wordStartHalf => .wordStartHalf f.unicode
  | .wordEndHalf => .wordEndHalf f.unicode

/-- The pattern of a character, in any case where case is ignored; bytes fold ASCII alone. -/
def charPattern (f : Flags) (c : Char) : Pattern :=
  if f.ignoreCase then Pattern.ofSet (f.fold (.single c)) else .literal [c]

end Flags

mutual

/-- The pattern of a node, and the flags in force behind it. -/
def Node.resolve? (f : Flags) : Node → Option (Pattern × Flags)
  | .empty => some (.empty, f)
  | .flags changes => some (.empty, f.change changes)
  | .literal l => (f.char? l).map fun c => (f.charPattern c, f)
  | .dot => f.dot?.map fun s => (.ofSet s, f)
  | .assertion a => some (.look (f.look a), f)
  | .common s negated => (f.common? s negated).map fun s => (.ofSet s, f)
  | .property query negated => (f.property? query negated).map fun s => (.ofSet s, f)
  | .bracket negated body =>
    ((body.set? f).bind (f.resolve? negated)).map fun s => (.ofSet s, f)
  | .times min max greedy body =>
    (body.resolve? f).map fun (p, f) => (p.repetition min max (greedy != f.swapGreed), f)
  | .group index changes body =>
    (body.resolve? (f.change changes)).map fun (p, _) =>
      (match index with
        | some n => .group n p
        | none => p, f)
  | .concat items => (Node.resolveAll? f items).map fun (ps, f) => (Pattern.concat ps, f)
  | .alternation items => (Node.resolveAll? f items).map fun (ps, f) => (Pattern.choice ps, f)

/-- The patterns of nodes in a row, and the flags in force behind them. -/
def Node.resolveAll? (f : Flags) : List Node → Option (List Pattern × Flags)
  | [] => some ([], f)
  | item :: rest => do
    let (p, f) ← item.resolve? f
    let (ps, f) ← Node.resolveAll? f rest
    return (p :: ps, f)

end

/-- The pattern of an expression. -/
def Node.pattern? (node : Node) : Option Pattern := (node.resolve? {}).map (·.1)

end AccessControl.Regex
