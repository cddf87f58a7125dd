import AccessControl.Regex.Pattern
import AccessControl.Unicode.Property
/-!
# Matching

Two readings of a pattern.  `Pattern.reach` takes the positions of a text that have been reached to
those a match can reach from there; whether a pattern matches somewhere is asked of it.
`Pattern.ends` lists the positions at which a match from one position can end, the preferred one
first: the left alternative before the right one, and more repetitions before fewer, or the other way
round for a reluctant repetition.  Which text a group matched is asked of it.

Two ways to reach one position differ in nothing that follows, so only the preferred one is kept.
-/

namespace AccessControl.Regex

/-! ## Looking at the text -/

def isAsciiWord (c : Char) : Bool := c.isAlphanum || c == '_'

def isWordIn (unicode : Bool) (c : Char) : Bool :=
  if unicode then Unicode.wordChars.contains c else isAsciiWord c

/-- Whether the character before a position satisfies a test. -/
def charBefore (text : Array Char) (pos : Nat) (test : Char → Bool) : Bool :=
  if pos = 0 then false else text[pos - 1]?.any test

/-- Whether the character behind a position satisfies a test. -/
def charBehind (text : Array Char) (pos : Nat) (test : Char → Bool) : Bool := text[pos]?.any test

def Look.holds (text : Array Char) (pos : Nat) : Look → Bool
  | .textStart => pos == 0
  | .textEnd => pos == text.size
  | .lineStart crlf =>
    pos == 0 || charBefore text pos (· == '\n') ||
      (crlf && charBefore text pos (· == '\r') && !charBehind text pos (· == '\n'))
  | .lineEnd crlf =>
    pos == text.size ||
      (if crlf then
        charBehind text pos (· == '\r') ||
          (charBehind text pos (· == '\n') && !charBefore text pos (· == '\r'))
      else charBehind text pos (· == '\n'))
  | .wordBoundary u => charBefore text pos (isWordIn u) != charBehind text pos (isWordIn u)
  | .notWordBoundary u => charBefore text pos (isWordIn u) == charBehind text pos (isWordIn u)
  | .wordStart u => !charBefore text pos (isWordIn u) && charBehind text pos (isWordIn u)
  | .wordEnd u => charBefore text pos (isWordIn u) && !charBehind text pos (isWordIn u)
  | .wordStartHalf u => !charBefore text pos (isWordIn u)
  | .wordEndHalf u => !charBehind text pos (isWordIn u)

/-! ## Positions reached -/

/-- Positions of a text: for every one, whether it is among them. -/
abbrev Positions := List Bool

namespace Positions

/-- The positions in one or the other. -/
def union (a b : Positions) : Positions := List.zipWith (· || ·) a b

/-- The positions behind those whose character satisfies a test. -/
def advance (text : Array Char) (test : Char → Bool) (s : Positions) : Positions :=
  false :: List.zipWith (fun marked c => marked && test c) s text.toList

/-- Takes a step so many times. -/
def exactly (step : Positions → Positions) : Nat → Positions → Positions
  | 0, s => s
  | n + 1, s => exactly step n (step s)

/-- Takes a step up to so many times, as long as it reaches a new position. -/
def upTo (step : Positions → Positions) : Nat → Positions → Positions
  | 0, s => s
  | n + 1, s =>
    let t := union s (step s)
    if t = s then s else upTo step n t

end Positions

namespace Pattern

/-- The positions a match can end at, from positions where it can start. -/
def reach (text : Array Char) : Pattern → Positions → Positions
  | .empty, s => s
  | .literal cs, s => cs.foldl (fun s c => Positions.advance text (· == c) s) s
  | .chars set, s => Positions.advance text set.contains s
  | .look l, s => s.mapIdx fun pos marked => marked && l.holds text pos
  | .group _ body, s => reach text body s
  | .seq first second, s => reach text second (reach text first s)
  | .alt left right, s => Positions.union (reach text left s) (reach text right s)
  | .times body min max _, s =>
    let step := reach text body
    Positions.upTo step ((max.getD (min + text.size)) - min) (Positions.exactly step min s)

/-- Whether a pattern matches somewhere in a text. -/
def matchesIn (pattern : Pattern) (text : String) : Bool :=
  let text := text.toList.toArray
  (pattern.reach text (List.replicate (text.size + 1) true)).contains true

end Pattern

/-! ## Preferred matches -/

/-- A position in the text, with the groups matched on the way, the latest first. -/
structure Place where
  pos : Nat
  groups : List (Nat × Nat × Nat) := []
  deriving Repr, DecidableEq

namespace Place

/-- The span a group matched last. -/
def group? (p : Place) (index : Nat) : Option (Nat × Nat) :=
  (p.groups.find? fun g => g.1 == index).map (·.2)

/-- The first place of every position; the bits of `seen` are the positions met before. -/
def keepFirst (seen : Nat) : List Place → List Place
  | [] => []
  | p :: rest =>
    if seen.testBit p.pos then keepFirst seen rest
    else p :: keepFirst (seen ||| 1 <<< p.pos) rest

/-- The place behind characters in a row. -/
def afterLiteral? (text : Array Char) (p : Place) : List Char → Option Place
  | [] => some p
  | c :: cs =>
    if text[p.pos]? = some c then afterLiteral? text { p with pos := p.pos + 1 } cs else none

/-- Exactly `n` steps from places in order. -/
def exactly (step : Place → List Place) : Nat → List Place → List Place
  | 0, ps => ps
  | n + 1, ps => exactly step n (keepFirst 0 (ps.flatMap step))

/-- The places reached by what goes on from places in order; `go` is given what was met before. -/
def through (go : Nat → Place → List Place × Nat) (seen : Nat) (ps : List Place) :
    List Place × Nat :=
  ps.foldl (fun (found, seen) q => let (more, seen) := go seen q; (found ++ more, seen)) ([], seen)

/-- Up to `n` steps, after `taken` ones.  The bits of `seen` are the positions started from, after
every number of steps; each is started from once. -/
def upTo (step : Place → List Place) (greedy : Bool) (width : Nat) :
    Nat → Nat → Nat → Place → List Place × Nat
  | 0, _, seen, p => ([p], seen)
  | n + 1, taken, seen, p =>
    let key := taken * width + p.pos
    if seen.testBit key then ([], seen)
    else
      let (further, seen) :=
        through (upTo step greedy width n (taken + 1)) (seen ||| 1 <<< key) (step p)
      (if greedy then further ++ [p] else p :: further, seen)

/-- Any number of steps, from every position at most once.  A step that stays at its position ends
the repetition.  Every other step moves on, so that `fuel` need not exceed the length of the text by
more than one. -/
def anyNumber (step : Place → List Place) (greedy : Bool) : Nat → Nat → Place → List Place × Nat
  | 0, seen, p => ([p], seen)
  | fuel + 1, seen, p =>
    if seen.testBit p.pos then ([], seen)
    else
      let go (seen : Nat) (q : Place) : List Place × Nat :=
        if q.pos = p.pos then ([q], seen) else anyNumber step greedy fuel seen q
      let (further, seen) := through go (seen ||| 1 <<< p.pos) (step p)
      (if greedy then further ++ [p] else p :: further, seen)

end Place

namespace Pattern

/-- The places at which a match from a place can end, the preferred one first. -/
def ends (text : Array Char) : Pattern → Place → List Place
  | .empty, p => [p]
  | .literal cs, p => (p.afterLiteral? text cs).toList
  | .chars set, p =>
    match text[p.pos]? with
    | some c => if set.contains c then [{ p with pos := p.pos + 1 }] else []
    | none => []
  | .look l, p => if l.holds text p.pos then [p] else []
  | .group index body, p =>
    (ends text body p).map fun q => { q with groups := (index, p.pos, q.pos) :: q.groups }
  | .seq first second, p => Place.keepFirst 0 ((ends text first p).flatMap (ends text second))
  | .alt left right, p => Place.keepFirst 0 (ends text left p ++ ends text right p)
  | .times body min max greedy, p =>
    let step := ends text body
    let rest : Place → List Place :=
      match max with
      | some n => fun q => (Place.upTo step greedy (text.size + 1) (n - min) 0 0 q).1
      | none => fun q => (Place.anyNumber step greedy (text.size + 1) 0 q).1
    Place.keepFirst 0 ((Place.exactly step min [p]).flatMap rest)

/-- The preferred match of the leftmost position from `start` on, in `count` positions. -/
def searchFrom (pattern : Pattern) (text : Array Char) : Nat → Nat → Option (Nat × Place)
  | 0, _ => none
  | count + 1, start =>
    match ends text pattern ⟨start, []⟩ with
    | p :: _ => some (start, p)
    | [] => searchFrom pattern text count (start + 1)

/-- The leftmost match: where it starts, and the place at which it ends. -/
def search (pattern : Pattern) (text : Array Char) : Option (Nat × Place) :=
  searchFrom pattern text (text.size + 1) 0

/-- The text a group matched, as far as it took part in the match. -/
def groupText? (text : Array Char) (place : Place) (index : Nat) : Option (List Char) :=
  (place.group? index).map fun (start, stop) => (text.extract start stop).toList

end Pattern

end AccessControl.Regex
