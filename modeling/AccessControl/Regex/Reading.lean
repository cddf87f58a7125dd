import AccessControl.Regex.ClassReading
/-!
# Reading regular expressions

`Node.ofText?` reads the usual syntax: alternatives, groups with and without a number, classes with
nesting and set operators, greedy and reluctant repetition, escapes, and flags inside the text.
There is no looking around and no reference to a group, and a text that is no regular expression has
no node.

The readers take what is left and return what is left behind what they read.  Every call of the
mutual readers consumes a character before it goes deeper, so the length of the text bounds them.
-/

namespace AccessControl.Regex

/-- What is left to read, and what the text before it set. -/
structure Reader where
  rest : List Char
  /-- Whether blanks and comments are skipped. -/
  extended : Bool := false
  /-- The number of the next group. -/
  nextGroup : Nat := 1
  /-- The names of the groups so far. -/
  names : List (List Char) := []

/-! ## Groups -/

/-- The flag of a letter. -/
def Flag.ofLetter? : Char → Option Flag
  | 'i' => some .ignoreCase
  | 'm' => some .multiLine
  | 's' => some .dotAll
  | 'U' => some .swapGreed
  | 'u' => some .unicode
  | 'R' => some .crlf
  | 'x' => some .extended
  | _ => none

/-- The flags of a group up to the colon or parenthesis that ends them, last one first; every letter
once, and not without a letter behind a hyphen. -/
def readFlags (on afterHyphen : Bool) (used : List Char) (changes : FlagChanges) :
    List Char → Option (FlagChanges × Char × List Char)
  | [] => none
  | c :: rest =>
    if c = ':' || c = ')' then if afterHyphen then none else some (changes.reverse, c, rest)
    else if used.contains c then none
    else if c = '-' then readFlags false true (c :: used) changes rest
    else
      match Flag.ofLetter? c with
      | some flag => readFlags on false (c :: used) ((flag, on) :: changes) rest
      | none => none

/-- Whether blanks and comments are skipped after changes. -/
def extendedAfter (extended : Bool) (changes : FlagChanges) : Bool :=
  match changes.find? fun change => change.1 == .extended with
  | some (_, value) => value
  | none => extended

/-- The name of a group up to the angle bracket that ends it. -/
def readGroupName (cs : List Char) : Option (List Char × List Char) :=
  let name := cs.takeWhile (· != '>')
  match cs.dropWhile (· != '>'), name with
  | _ :: rest, first :: more =>
    let startsWell := first == '_' || Unicode.isAlphabetic first
    let isPart (c : Char) : Bool :=
      c == '_' || c == '.' || c == '[' || c == ']' || Unicode.isAlphanumeric c
    if startsWell && more.all isPart then some (name, rest) else none
  | _, _ => none

/-- What the text behind an opening parenthesis opens. -/
inductive Opening where
  /-- Flags for the rest of the enclosing group. -/
  | flags (changes : FlagChanges) (rest : List Char)
  /-- A group without a number. -/
  | plain (changes : FlagChanges) (rest : List Char)
  /-- A group with the next number, and perhaps a name. -/
  | capture (name : Option (List Char)) (rest : List Char)

/-- Reads what is opened.  Looking around does not exist, a name is given once, and parentheses
around a question mark alone are nothing. -/
def readOpening (r : Reader) (cs : List Char) : Option Opening :=
  match skip r.extended cs with
  | '?' :: '=' :: _ => none
  | '?' :: '!' :: _ => none
  | '?' :: '<' :: '=' :: _ => none
  | '?' :: '<' :: '!' :: _ => none
  | '?' :: 'P' :: '<' :: rest => named rest
  | '?' :: '<' :: rest => named rest
  | '?' :: rest =>
    match readFlags true false [] [] rest with
    | some (changes, ')', rest) => if changes.isEmpty then none else some (.flags changes rest)
    | some (changes, _, rest) => some (.plain changes rest)
    | none => none
  | cs => some (.capture none cs)
where
  named (rest : List Char) : Option Opening :=
    match readGroupName rest with
    | some (name, rest) => if r.names.contains name then none else some (.capture (some name) rest)
    | none => none

/-! ## Parts -/

/-- A part that is neither group nor class nor repetition, and the text behind it. -/
def readPart (extended : Bool) : List Char → Option (Node × List Char)
  | '\\' :: rest =>
    match readEscape extended rest with
    | some (.literal l, rest) => some (.literal l, rest)
    | some (.common set negated, rest) => some (.common set negated, rest)
    | some (.property query negated, rest) => some (.property query negated, rest)
    | some (.assertion a, rest) => some (.assertion a, rest)
    | none => none
  | '.' :: rest => some (.dot, rest)
  | '^' :: rest => some (.assertion .lineStart, rest)
  | '$' :: rest => some (.assertion .lineEnd, rest)
  | c :: rest => some (.literal ⟨c, false⟩, rest)
  | [] => none

/-- Whether a repetition takes as much as it can, and the text behind its question mark. -/
def readGreed : List Char → Bool × List Char
  | '?' :: rest => (false, rest)
  | cs => (true, cs)

/-- Repeats the last part read.  Flags are no part. -/
def repeatLast (items : List Node) (min : Nat) (max : Option Nat) (greedy : Bool) :
    Option (List Node) :=
  match items with
  | .flags _ :: _ => none
  | item :: before => some (.times min max greedy item :: before)
  | [] => none

/-- The node of alternatives and of the parts of the last one, given last one first. -/
def joinBranches (branches items : List Node) : Node :=
  Node.ofBranches (Node.ofItems items.reverse :: branches).reverse

mutual

/-- The alternatives up to the end of the text or a closing parenthesis, which is left.  `branches` and
`items` hold the alternatives and parts read so far, last one first. -/
def readAlternatives :
    Nat → List Node → List Node → Reader → Option (Node × Reader)
  | 0, _, _, _ => none
  | fuel + 1, branches, items, r =>
    match skip r.extended r.rest with
    | [] => some (joinBranches branches items, { r with rest := [] })
    | ')' :: rest => some (joinBranches branches items, { r with rest := ')' :: rest })
    | '|' :: rest =>
      readAlternatives fuel (Node.ofItems items.reverse :: branches) [] { r with rest }
    | '(' :: rest =>
      match readOpening r rest with
      | some (.flags changes rest) =>
        readAlternatives fuel branches (.flags changes :: items)
          { r with rest, extended := extendedAfter r.extended changes }
      | some (.plain changes rest) =>
        readGroup fuel branches items r.extended none changes
          { r with rest, extended := extendedAfter r.extended changes }
      | some (.capture name rest) =>
        readGroup fuel branches items r.extended (some r.nextGroup) []
          { r with rest, nextGroup := r.nextGroup + 1, names := name.toList ++ r.names }
      | none => none
    | '[' :: rest =>
      match readClass r.extended (2 * rest.length + 2) rest with
      | some (.bracket negated body, rest) =>
        readAlternatives fuel branches (.bracket negated body :: items) { r with rest }
      | _ => none
    | '?' :: rest => readRepetition fuel branches items r 0 (some 1) rest
    | '*' :: rest => readRepetition fuel branches items r 0 none rest
    | '+' :: rest => readRepetition fuel branches items r 1 none rest
    | '\x7b' :: rest =>
      match readBounds r.extended rest with
      | some (min, max, rest) =>
        readRepetition fuel branches items r min max (skip r.extended rest)
      | none => none
    | cs =>
      match readPart r.extended cs with
      | some (item, rest) => readAlternatives fuel branches (item :: items) { r with rest }
      | none => none

/-- Goes on behind a repetition sign. -/
def readRepetition :
    Nat → List Node → List Node → Reader → Nat → Option Nat → List Char → Option (Node × Reader)
  | 0, _, _, _, _, _, _ => none
  | fuel + 1, branches, items, r, min, max, rest =>
    let (greedy, rest) := readGreed rest
    match repeatLast items min max greedy with
    | some items => readAlternatives fuel branches items { r with rest }
    | none => none

/-- Reads the body of a group with a reader of its own, and goes on behind it as before it. -/
def readGroup :
    Nat → List Node → List Node → Bool → Option Nat → FlagChanges → Reader →
      Option (Node × Reader)
  | 0, _, _, _, _, _, _ => none
  | fuel + 1, branches, items, extended, index, changes, inner =>
    match readAlternatives fuel [] [] inner with
    | some (body, r) =>
      match r.rest with
      | ')' :: rest =>
        readAlternatives fuel branches (.group index changes body :: items)
          { r with rest, extended }
      | _ => none
    | none => none

end

/-- The node of a text that is a regular expression. -/
def Node.ofText? (text : List Char) : Option Node :=
  match readAlternatives (3 * text.length + 3) [] [] { rest := text } with
  | some (node, r) => if r.rest.isEmpty then some node else none
  | none => none

end AccessControl.Regex
