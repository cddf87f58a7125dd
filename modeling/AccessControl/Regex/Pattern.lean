import AccessControl.Unicode.CharSet
/-!
# Patterns

What a regular expression means, free of its flags and its spelling.  Patterns are built by `concat`,
`choice` and `repetition`, which write equal expressions alike: characters in a row become one
literal, alternatives of one character each become a set, and a beginning that all alternatives share
stands before them.

    a choice between characters is a set       `Pattern.choice [literal [a], literal [b]]`
    nothing repeated is nothing                `Pattern.repetition p 0 (some 0)`
-/

namespace AccessControl.Regex

/-- What must hold at a position without consuming a character. -/
inductive Look where
  | textStart
  | textEnd
  /-- At the start of a line; `crlf` lets `\r` end lines too. -/
  | lineStart (crlf : Bool)
  | lineEnd (crlf : Bool)
  /-- Between a word character and another one. -/
  | wordBoundary (unicode : Bool)
  | notWordBoundary (unicode : Bool)
  | wordStart (unicode : Bool)
  | wordEnd (unicode : Bool)
  /-- No word character before. -/
  | wordStartHalf (unicode : Bool)
  /-- No word character behind. -/
  | wordEndHalf (unicode : Bool)
  deriving Repr, DecidableEq

inductive Pattern where
  | empty
  /-- These characters in a row. -/
  | literal (cs : List Char)
  /-- One character of a set. -/
  | chars (set : CharSet)
  | look (l : Look)
  /-- A group whose last match is remembered under its number. -/
  | group (index : Nat) (body : Pattern)
  | seq (first second : Pattern)
  | alt (left right : Pattern)
  /-- At least `min` times, and at most `max` times if there is a bound. -/
  | times (body : Pattern) (min : Nat) (max : Option Nat) (greedy : Bool)
  deriving Repr, DecidableEq

namespace Pattern

/-! ## Lengths -/

/-- The least number of characters in a match; `none` if there is no match. -/
def minLength? : Pattern → Option Nat
  | .empty => some 0
  | .literal cs => some cs.length
  | .chars set => if set.ranges.isEmpty then none else some 1
  | .look _ => some 0
  | .group _ body => body.minLength?
  | .seq a b => return (← a.minLength?) + (← b.minLength?)
  | .alt a b => return min (← a.minLength?) (← b.minLength?)
  | .times body min _ _ => return (← body.minLength?) * min

/-- The greatest number of characters in a match; `none` if there is none. -/
def maxLength? : Pattern → Option Nat
  | .empty => some 0
  | .literal cs => some cs.length
  | .chars set => if set.ranges.isEmpty then none else some 1
  | .look _ => some 0
  | .group _ body => body.maxLength?
  | .seq a b => return (← a.maxLength?) + (← b.maxLength?)
  | .alt a b => return max (← a.maxLength?) (← b.maxLength?)
  | .times body _ max _ => return (← body.maxLength?) * (← max)

/-! ## Rows -/

/-- The parts of a row before further ones. -/
def partsOnto : Pattern → List Pattern → List Pattern
  | .seq a b, rest => a.partsOnto (b.partsOnto rest)
  | p, rest => p :: rest

/-- The parts of a row. -/
def parts (p : Pattern) : List Pattern := p.partsOnto []

/-- Joins literals that follow each other, and drops what is empty. -/
def joinLiterals : List Pattern → List Pattern
  | [] => []
  | .empty :: rest => joinLiterals rest
  | .literal cs :: rest =>
    match joinLiterals rest with
    | .literal ds :: rest => .literal (cs ++ ds) :: rest
    | rest => .literal cs :: rest
  | p :: rest => p :: joinLiterals rest

/-- Patterns in a row, as they are. -/
def row : List Pattern → Pattern
  | [] => .empty
  | p :: rest => rest.foldl .seq p

/-- Patterns in a row. -/
def concat (ps : List Pattern) : Pattern := row (joinLiterals (ps.flatMap parts))

/-! ## Choices -/

/-- One character of a set. -/
def ofSet (set : CharSet) : Pattern :=
  match set.onlyChar? with
  | some c => .literal [c]
  | none => .chars set

/-- The alternatives of a choice before further ones. -/
def branchesOnto : Pattern → List Pattern → List Pattern
  | .alt a b, rest => a.branchesOnto (b.branchesOnto rest)
  | p, rest => p :: rest

/-- Alternatives as they are; without any there is no match. -/
def alternatives : List Pattern → Pattern
  | [] => .chars .empty
  | [p] => p
  | p :: rest => .alt p (alternatives rest)

/-- The character of a literal of one. -/
def literalSet? : Pattern → Option CharSet
  | .literal [c] => some (.single c)
  | _ => none

def set? : Pattern → Option CharSet
  | .chars set => some set
  | _ => none

/-- The parts of a pattern with several of them. -/
def row? : Pattern → Option (List Pattern)
  | .seq a b => some (parts (.seq a b))
  | _ => none

/-- What two rows begin with alike. -/
def sharedStart : List Pattern → List Pattern → List Pattern
  | p :: ps, q :: qs => if p = q then p :: sharedStart ps qs else []
  | _, _ => []

/-- What all rows begin with. -/
def commonStart : List (List Pattern) → List Pattern
  | [] => []
  | first :: rest => rest.foldl sharedStart first

/-- Patterns of which one is chosen.  What all of them begin with is taken out as often as `fuel`
allows. -/
def choiceWithin : Nat → List Pattern → Pattern
  | 0, ps => alternatives ps
  | fuel + 1, ps =>
    let ps := ps.foldr branchesOnto []
    if ps.length ≤ 1 then alternatives ps
    else
      match (ps.mapM literalSet?).or (ps.mapM set?), ps.mapM row? with
      | some sets, _ => ofSet (CharSet.unions sets)
      | none, some rows =>
        let start := commonStart rows
        if start.isEmpty then alternatives ps
        else
          let rest := rows.map fun row => concat (row.drop start.length)
          concat (start ++ [choiceWithin fuel rest])
      | none, none => alternatives ps

/-- Patterns of which one is chosen. -/
def choice (ps : List Pattern) : Pattern :=
  choiceWithin ((ps.flatMap parts).length + 1) ps

/-! ## Repetition -/

/-- A pattern repeated.  What matches empty text only does so once. -/
def repetition (p : Pattern) (min : Nat) (max : Option Nat) (greedy : Bool) : Pattern :=
  let (min, max) :=
    if p.maxLength? = some 0 then (Nat.min min 1, some (Nat.min (max.getD 1) 1)) else (min, max)
  if min = 0 && max = some 0 then .empty
  else if min = 1 && max = some 1 then p
  else .times p min max greedy

end Pattern

end AccessControl.Regex
