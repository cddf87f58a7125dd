import AccessControl.Regex.Escape
/-!
# Reading classes

A class is written between brackets: characters, ranges, escapes, named sets and further classes, and
operators between them.  `readClass` takes the characters behind an opening bracket and returns what
stands before the bracket that closes it.
-/

namespace AccessControl.Regex

/-- The set of a name between `[:` and `:]`. -/
def asciiSet? (name : String) : Option CharSet :=
  let ranges (rs : List (Char × Char)) : Option CharSet :=
    some (CharSet.unions (rs.map fun (first, last) => .range first last))
  match name with
  | "alnum" => ranges [('0', '9'), ('A', 'Z'), ('a', 'z')]
  | "alpha" => ranges [('A', 'Z'), ('a', 'z')]
  | "ascii" => ranges [('\x00', '\x7f')]
  | "blank" => ranges [('\t', '\t'), (' ', ' ')]
  | "cntrl" => ranges [('\x00', '\x1f'), ('\x7f', '\x7f')]
  | "digit" => ranges [('0', '9')]
  | "graph" => ranges [('!', '~')]
  | "lower" => ranges [('a', 'z')]
  | "print" => ranges [(' ', '~')]
  | "punct" => ranges [('!', '/'), (':', '@'), ('[', '\x60'), ('\x7b', '~')]
  | "space" => ranges [('\t', '\r'), (' ', ' ')]
  | "upper" => ranges [('A', 'Z')]
  | "word" => ranges [('0', '9'), ('A', 'Z'), ('_', '_'), ('a', 'z')]
  | "xdigit" => ranges [('0', '9'), ('A', 'F'), ('a', 'f')]
  | _ => none

/-- A named set from just behind `[:`. -/
def readAsciiSet (cs : List Char) : Option (ClassNode × List Char) :=
  let (negated, cs) := match cs with
    | '^' :: rest => (true, rest)
    | _ => (false, cs)
  match cs.dropWhile (· != ':') with
  | ':' :: ']' :: rest =>
    (asciiSet? (String.ofList (cs.takeWhile (· != ':')))).map fun s => (.ascii s negated, rest)
  | _ => none

/-- A member of a class on its own: a character or an escape. -/
def readMember (extended : Bool) : List Char → Option (ClassNode × List Char)
  | '\\' :: rest =>
    match readEscape extended rest with
    | some (.literal l, rest) => some (.literal l, rest)
    | some (.common set negated, rest) => some (.common set negated, rest)
    | some (.property query negated, rest) => some (.property query negated, rest)
    | some (.assertion _, _) => none
    | none => none
  | c :: rest => some (.literal ⟨c, false⟩, rest)
  | [] => none

/-- What is seen behind a hyphen: the next character that is no blank.  The sign that opens a comment
is passed over, and what is seen is then a character of the comment. -/
def peekExtended : Bool → List Char → Option Char
  | _, [] => none
  | inComment, c :: rest =>
    if Text.isBlank c then peekExtended inComment rest
    else if c = '#' && !inComment then peekExtended true rest
    else some c

/-- What is seen behind a hyphen. -/
def peek (extended : Bool) (cs : List Char) : Option Char :=
  if extended then peekExtended false cs else cs.head?

/-- A member of a class, or a range whose ends are characters.  A hyphen before the closing bracket
or another hyphen makes no range. -/
def readRange (extended : Bool) (cs : List Char) : Option (ClassNode × List Char) := do
  let (first, rest) ← readMember extended cs
  match skip extended rest with
  | [] => none
  | '-' :: rest =>
    if peek extended rest = some ']' || peek extended rest = some '-' then some (first, '-' :: rest)
    else
      let (last, rest) ← readMember extended (skip extended rest)
      match first, last with
      | .literal a, .literal b => if a.char ≤ b.char then some (.range a b, rest) else none
      | _, _ => none
  | rest => some (first, rest)

/-- The hyphens a class starts with, and a closing bracket when it comes first; they stand for
themselves. -/
def readClassStart (extended : Bool) : Nat → List ClassNode → List Char →
    List ClassNode × List Char
  | 0, items, cs => (items, cs)
  | fuel + 1, items, cs =>
    match skip extended cs with
    | '-' :: rest => readClassStart extended fuel (.literal ⟨'-', false⟩ :: items) rest
    | ']' :: rest =>
      if items.isEmpty then ([.literal ⟨']', false⟩], rest) else (items, ']' :: rest)
    | cs => (items, cs)

/-- The operand before an operator, combined with the operands before it. -/
def joinOperand (pending : Option (SetOperator × ClassNode)) (items : List ClassNode) : ClassNode :=
  let operand := ClassNode.ofItems items.reverse
  match pending with
  | some (op, before) => .operation op before operand
  | none => operand

mutual

/-- A class from just behind its opening bracket. -/
def readClass (extended : Bool) : Nat → List Char → Option (ClassNode × List Char)
  | 0, _ => none
  | fuel + 1, cs =>
    let (negated, cs) := match skip extended cs with
      | '^' :: rest => (true, rest)
      | cs => (false, cs)
    let (items, cs) := readClassStart extended cs.length [] cs
    (readMembers extended fuel none items cs).map fun (body, rest) => (.bracket negated body, rest)

/-- The members of a class up to its closing bracket; `items` are those read behind the operator that
is pending, the last one first. -/
def readMembers (extended : Bool) :
    Nat → Option (SetOperator × ClassNode) → List ClassNode → List Char →
      Option (ClassNode × List Char)
  | 0, _, _, _ => none
  | fuel + 1, pending, items, cs =>
    let operator (op : SetOperator) (rest : List Char) : Option (ClassNode × List Char) :=
      readMembers extended fuel (some (op, joinOperand pending items)) [] rest
    match skip extended cs with
    | [] => none
    | ']' :: rest => some (joinOperand pending items, rest)
    | '&' :: '&' :: rest => operator .inter rest
    | '-' :: '-' :: rest => operator .diff rest
    | '~' :: '~' :: rest => operator .symmDiff rest
    | '[' :: rest =>
      let named := match rest with
        | ':' :: name => readAsciiSet name
        | _ => none
      match named with
      | some (item, rest) => readMembers extended fuel pending (item :: items) rest
      | none =>
        match readClass extended fuel rest with
        | some (item, rest) => readMembers extended fuel pending (item :: items) rest
        | none => none
    | cs =>
      match readRange extended cs with
      | some (item, rest) => readMembers extended fuel pending (item :: items) rest
      | none => none

end

end AccessControl.Regex
