import AccessControl.Regex.ByteRange
import AccessControl.Regex.Pattern
import AccessControl.Number.Digits
import Std.Data.HashMap
/-!
# The size of a pattern

A pattern is searched for by an automaton over the bytes of the text, and one that would take more
than ten mebibytes is refused.  Repetition is written out in the automaton, so that `a{1000}` takes a
thousand times what `a` takes.

A state takes 32 bytes, a transition on a range of bytes 8, and a way without a byte 4.  Two automata
are built, one that reads forward and one that reads backward, and both must fit.  The forward one
shares equal ends of the byte rows of a set, the backward one equal beginnings; either looks for what
it can share in a table with a bounded number of places, where a later entry drives out an earlier
one.

What is counted is what regex-automata 0.4 counts for regex 1.10 and later versions before 2, on targets with
words of 64 bits: states and lists are larger or smaller elsewhere, and so is what fits.
-/

namespace AccessControl.Regex

/-- What an automaton holds so far. -/
structure Tally where
  states : Nat := 0
  /-- The bytes of transitions and ways. -/
  links : Nat := 0
  deriving Repr, DecidableEq

namespace Tally

/-- The bytes an automaton takes. -/
def bytes (t : Tally) : Nat := 32 * t.states + t.links

/-- The bytes an automaton may take. -/
def limit : Nat := 10 * Number.twoTo 20

/-- An automaton that is not too large. -/
def check (t : Tally) : Option Tally := if t.bytes ≤ limit then some t else none

/-- A further state with so many bytes of transitions and ways. -/
def state (links : Nat) (t : Tally) : Option Tally :=
  check ⟨t.states + 1, t.links + links⟩

/-- So many states with one transition or way each, which is part of the state. -/
def plain (n : Nat) (t : Tally) : Option Tally := check ⟨t.states + n, t.links⟩

/-- Further ways without a byte. -/
def ways (n : Nat) (t : Tally) : Option Tally := check ⟨t.states, t.links + 4 * n⟩

end Tally

/-! ## Sets -/

/-- A transition of the automaton: a range of bytes, and the number of the state it leads to. -/
structure Transition where
  range : ByteRange
  next : Nat
  deriving Repr, DecidableEq

/-- Takes a number into a 64-bit sum, so that equal rows of numbers have equal sums. -/
def mix (sum : UInt64) (n : Nat) : UInt64 := (sum ^^^ UInt64.ofNat n) * 1099511628211

/-- The sum of no numbers. -/
def mixStart : UInt64 := 14695981039346656037

/-- The place of a state with these transitions. -/
def Transition.placeOf (row : List Transition) : Nat :=
  (row.foldl (fun sum x => mix (mix (mix sum x.range.first) x.range.last) x.next) mixStart).toNat
    % 10000

/-- The place of a state that leads to another one. -/
def ByteRange.placeOf (r : ByteRange) (next : Nat) : Nat :=
  (mix (mix (mix mixStart next) r.first) r.last).toNat % 1000

/-- The states that can be shared, by their places in a table. -/
abbrev Shared (α : Type) := Std.HashMap Nat (α × Nat)

/-- A state that shows the same transitions, or else a new one, and the number of it. -/
def shareState (t : Tally) (shared : Shared (List Transition)) (row : List Transition) :
    Option (Tally × Shared (List Transition) × Nat) :=
  let place := Transition.placeOf row
  let fresh : Option (Tally × Shared (List Transition) × Nat) :=
    (t.state (8 * row.length)).map fun t' => (t', shared.insert place (row, t.states), t.states)
  match shared[place]? with
  | some (known, number) => if known = row then some (t, shared, number) else fresh
  | none => fresh

/-- A node whose transitions are still being collected: those that are complete, and the range of the
last one, which leads to the node below. -/
structure OpenNode where
  done : List Transition := []
  last : Option ByteRange := none

/-- A node with its last transition leading to a state. -/
def OpenNode.close (node : OpenNode) (next : Nat) : List Transition :=
  match node.last with
  | some range => node.done ++ [⟨range, next⟩]
  | none => node.done

/-- Builds the states of open nodes, the lowest one first; gives the number of the highest one's. -/
def buildNodes (target : Nat) : List OpenNode → Tally → Shared (List Transition) →
    Option (Tally × Shared (List Transition) × Nat)
  | [], t, shared => some (t, shared, target)
  | node :: below, t, shared => do
    let (t, shared, next) ← buildNodes target below t shared
    shareState t shared (node.close next)

/-- The number of nodes whose open transitions are the beginning of a row. -/
def commonNodes : List OpenNode → List ByteRange → Nat
  | node :: nodes, r :: row => if node.last = some r then commonNodes nodes row + 1 else 0
  | _, _ => 0

/-- Builds the nodes below those a row has in common with the row before, and opens its own. -/
def addRow (target : Nat) (nodes : List OpenNode) (row : List ByteRange) (t : Tally)
    (shared : Shared (List Transition)) :
    Option (List OpenNode × Tally × Shared (List Transition)) := do
  let n := commonNodes nodes row
  let (t, shared, next) ← buildNodes target (nodes.drop (n + 1)) t shared
  let top : OpenNode := ⟨(nodes[n]?.getD {}).close next, row[n]?⟩
  let opened := (row.drop (n + 1)).map fun r => OpenNode.mk [] (some r)
  return (nodes.take n ++ top :: opened, t, shared)

/-- The states of byte rows read forward. -/
def forwardRows (target : Nat) : List (List ByteRange) → List OpenNode → Tally →
    Shared (List Transition) → Option Tally
  | [], nodes, t, shared => (buildNodes target nodes t shared).map (·.1)
  | row :: rows, nodes, t, shared => do
    let (nodes, t, shared) ← addRow target nodes row t shared
    forwardRows target rows nodes t shared

/-- The states of one byte row read backward, from the end `next` on. -/
def backwardRow : List ByteRange → Nat → Tally → Shared (Nat × ByteRange) →
    Option (Tally × Shared (Nat × ByteRange))
  | [], _, t, shared => some (t, shared)
  | r :: row, next, t, shared =>
    let place := r.placeOf next
    let fresh : Option (Tally × Shared (Nat × ByteRange)) := do
      let t' ← t.plain 1
      backwardRow row t.states t' (shared.insert place ((next, r), t.states))
    match shared[place]? with
    | some (known, number) =>
      if known = (next, r) then backwardRow row number t shared else fresh
    | none => fresh

/-- The states of byte rows read backward. -/
def backwardRows (target : Nat) : List (List ByteRange) → Tally → Shared (Nat × ByteRange) →
    Option Tally
  | [], t, _ => some t
  | row :: rows, t, shared => do
    let (t, shared) ← backwardRow row target t shared
    backwardRows target rows (← t.ways 1) shared

/-- The states of a set. -/
def addSet (backward : Bool) (s : CharSet) (t : Tally) : Option Tally := do
  if s.isAscii then (← t.plain 1).state (8 * s.ranges.length)
  else if backward then
    let t ← t.plain 1
    backwardRows t.states (byteRows s) (← t.plain 1) {}
  else forwardRows t.states (byteRows s) [{}] (← t.plain 1) {}

/-! ## Choices between literals -/

/-- The UTF-8 bytes of characters. -/
def literalBytes (cs : List Char) : List Nat := cs.flatMap fun c => utf8Bytes c.toNat

/-- The literals of a choice between literals alone. -/
def Pattern.literals? : Pattern → Option (List (List Char))
  | .literal cs => some [cs]
  | .alt (.literal cs) rest => rest.literals?.map (cs :: ·)
  | _ => none

/-- The rests behind the bytes that rows begin with, by byte in the order met. -/
def branchesOf (rows : List (List Nat)) : List (List (List Nat)) :=
  let heads := (rows.filterMap List.head?).eraseDups
  heads.map fun b => rows.filterMap fun row =>
    match row with
    | a :: rest => if a = b then some rest else none
    | [] => none

/-- Rows cut at those that are empty, from the rows of the present segment on, last one first.  Empty
rows before any other count as one: `begun` tells of another one, `cut` of an empty one. -/
def segmentsFrom (begun cut : Bool) (present : List (List Nat)) :
    List (List Nat) → List (List (List Nat))
  | [] => [present.reverse]
  | [] :: rest =>
    if !begun && cut then segmentsFrom begun cut present rest
    else present.reverse :: segmentsFrom begun true [] rest
  | row :: rest => segmentsFrom true cut (row :: present) rest

/-- The states of a choice between rows of bytes no longer than `fuel`: equal beginnings are shared as
long as no row ends there. -/
def addRows : Nat → List (List Nat) → Tally → Option Tally
  | 0, _, t => some t
  | fuel + 1, rows, t => do
    let segments := segmentsFrom false false [] rows
    let filled := segments.filter fun rows => !rows.isEmpty
    let t ← t.state (4 * (filled.length + segments.length - 1))
    filled.foldlM (fun t rows => do
      let branches := branchesOf rows
      let t ← if branches.length = 1 then t.plain 1 else t.state (8 * branches.length)
      branches.foldlM (fun t rest => if rest.all List.isEmpty then some t else addRows fuel rest t) t)
      t

/-- The states of a choice between literals. -/
def addLiterals (backward : Bool) (literals : List (List Char)) (t : Tally) : Option Tally := do
  let rows := literals.map fun cs =>
    if backward then (literalBytes cs).reverse else literalBytes cs
  addRows ((rows.map List.length).foldl max 0) rows (← t.plain 1)

/-! ## Patterns -/

/-- Whether the automaton of a pattern ends in a state with several ways, which takes a further way to
what follows. -/
def Pattern.endsOpen (backward : Bool) : Pattern → Bool
  | .empty | .literal _ | .chars _ | .look _ | .alt _ _ => false
  | .group _ body => backward && body.endsOpen backward
  | .seq first second => if backward then first.endsOpen backward else second.endsOpen backward
  | .times body min none _ => min != 0 || (body.minLength?.any fun n => decide (0 < n))
  | .times body min (some max) _ => min == max && body.endsOpen backward

/-- Where a pattern stands in a choice. -/
inductive Standing where
  /-- In no choice, or first in it. -/
  | first
  | second
  | later
  deriving DecidableEq

/-- What a choice adds behind an alternative: with the second one it gets a state with the ways to
both, and one in which all end. -/
def Standing.join : Standing → Tally → Option Tally
  | .first, t => some t
  | .second, t => do (← t.state 8).plain 1
  | .later, t => t.ways 1

/-- So many copies of what a step adds, with further ways before each. -/
def copies (add : Tally → Option Tally) (ways : Nat) : Nat → Tally → Option Tally
  | 0, t => some t
  | n + 1, t => do copies add ways n (← add (← t.ways ways))

/-- A repetition of exactly so many times, with further ways between them; none at all takes a state
too. -/
def exactCopies (add : Tally → Option Tally) (ways : Nat) : Nat → Tally → Option Tally
  | 0, t => t.plain 1
  | n + 1, t => do copies add ways n (← add t)

/-- The states of a pattern, and what its choice adds behind it. -/
def Pattern.add (backward : Bool) : Pattern → Standing → Tally → Option Tally
  | .empty, standing, t => do standing.join (← t.plain 1)
  | .literal cs, standing, t => do standing.join (← t.plain (literalBytes cs).length)
  | .chars set, standing, t => do standing.join (← addSet backward set t)
  | .look _, standing, t => do standing.join (← t.plain 1)
  | .group _ body, standing, t => do
    if backward then standing.join (← body.add backward .first t)
    else
      let t ← body.add backward .first (← t.plain 1)
      standing.join (← (← t.ways (body.endsOpen backward).toNat).plain 1)
  | .seq a b, standing, t => do
    if backward then
      let t ← b.add backward .first t
      standing.join (← a.add backward .first (← t.ways (b.endsOpen backward).toNat))
    else
      let t ← a.add backward .first t
      standing.join (← b.add backward .first (← t.ways (a.endsOpen backward).toNat))
  | .alt left right, standing, t =>
    match standing, (Pattern.alt left right).literals? with
    | .first, some literals => addLiterals backward literals t
    | _, _ => do
      let t ← standing.join (← left.add backward .first t)
      let next : Standing := if standing = .first then .second else .later
      let ways := (left.endsOpen backward).toNat + (right.endsOpen backward).toNat
      right.add backward next (← t.ways ways)
  | .times body min max _, standing, t => do
    let add := body.add backward .first
    let ways := (body.endsOpen backward).toNat
    let t ← match min, max with
      | 0, none =>
        if body.minLength?.any fun n => decide (0 < n) then
          (← add (← t.state 4)).ways ways
        else (← (← add t).plain 3).ways (4 + ways)
      | min + 1, none => do
        let t ← exactCopies add ways (min + 1) t
        t.state (4 * (1 + ways))
      | 0, some 1 => (← (← add (← t.state 8)).plain 1).ways ways
      | min, some max =>
        if min = max then exactCopies add ways min t
        else do
          let t ← exactCopies add ways min t
          let before := if min = 0 then 0 else ways
          let t ← (← t.plain 1).ways before
          let t ← exactCopies (fun t => do add (← t.state 8)) ways (max - min) t
          t.ways ways
    standing.join t

/-- Whether every match of a pattern begins at the start of the text. -/
def Pattern.fromStart : Pattern → Bool
  | .look l => l == .textStart
  | .group _ body => body.fromStart
  | .seq a b => a.fromStart || (a.maxLength? == some 0 && b.fromStart)
  | .alt a b => a.fromStart && b.fromStart
  | .times body min _ _ => min != 0 && body.fromStart
  | _ => false

/-- Whether every match of a pattern ends at the end of the text. -/
def Pattern.toEnd : Pattern → Bool
  | .look l => l == .textEnd
  | .group _ body => body.toEnd
  | .seq a b => b.toEnd || (b.maxLength? == some 0 && a.toEnd)
  | .alt a b => a.toEnd && b.toEnd
  | .times body min _ _ => min != 0 && body.toEnd
  | _ => false

/-- The automaton that reads forward, which remembers where the whole match begins and ends.  Unless
matches begin at the start of the text, it passes over any bytes first. -/
def Pattern.forward? (p : Pattern) : Option Tally := do
  let t : Tally := {}
  let t ← if p.fromStart then t.plain 1 else (← t.plain 3).ways 4
  let t ← p.add false .first (← t.plain 1)
  (← t.ways (p.endsOpen false).toNat).plain 2

/-- The automaton that reads backward. -/
def Pattern.backward? (p : Pattern) : Option Tally := do
  let t : Tally := {}
  let t ← if p.toEnd then t.plain 1 else (← t.plain 3).ways 4
  let t ← p.add true .first t
  (← t.ways (p.endsOpen true).toNat).plain 1

/-- A number of bytes that neither automaton of a pattern exceeds, what stands around the pattern aside.
A byte takes at most 80 bytes also in a choice between literals, and a row of a set at most four states
with a transition each. -/
def Pattern.bound : Pattern → Nat
  | .empty | .look _ => 32
  | .literal cs => 80 * (literalBytes cs).length + 8
  | .chars set => 160 * (byteRows set).length + 200
  | .group _ body => body.bound + 68
  | .seq a b => a.bound + b.bound + 4
  | .alt a b => a.bound + b.bound + 84
  | .times body min max _ => (body.bound + 60) * (max.getD min + 1) + 200

/-- Whether the automata of a pattern fit.  They are not counted out if they cannot be too large. -/
def Pattern.fits (p : Pattern) : Bool :=
  decide (p.bound + 400 ≤ Tally.limit) || (p.forward?.isSome && p.backward?.isSome)

theorem Pattern.fits_of_bound_le {p : Pattern} (h : p.bound + 400 ≤ Tally.limit) :
    p.fits = true := by
  rw [fits, decide_eq_true h, Bool.true_or]

end AccessControl.Regex
