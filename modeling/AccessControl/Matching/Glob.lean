/-!
# Glob patterns for paths

`*` and `?` stay inside a path component, `**` is a whole component and covers any number of
components, and `[…]` is one character of a set or, with `!`, one outside it.  No wildcard but `**`
covers a separator.  Patterns are read and matched as in glob 0.3.
-/

namespace AccessControl.Glob

/-- A member of a bracket expression. -/
inductive Member where
  | one (c : Char)
  | range (first last : Char)
  deriving Repr, DecidableEq

def Member.contains : Member → Char → Bool
  | .one a, c => c == a
  | .range first last, c => first ≤ c && c ≤ last

inductive Item where
  | char (c : Char)
  | anyChar
  | within (members : List Member)
  | except (members : List Member)
  /-- `*` -/
  | sequence
  /-- `**` -/
  | recursive
  deriving Repr, DecidableEq

/-- The members between brackets: three characters around a hyphen are a range. -/
def members : List Char → List Member
  | a :: '-' :: b :: rest => .range a b :: members rest
  | a :: rest => .one a :: members rest
  | [] => []

/-- A bracket expression from behind its opening bracket.  It has at least one member, so a closing
bracket in first place is one. -/
def readBracket : List Char → Option (Item × List Char)
  | '!' :: c :: rest => finish .except c rest
  | '!' :: [] => none
  | c :: rest => finish .within c rest
  | [] => none
where
  finish (item : List Member → Item) (first : Char) (rest : List Char) :
      Option (Item × List Char) :=
    match rest.dropWhile (· != ']') with
    | _ :: after => some (item (members (first :: rest.takeWhile (· != ']'))), after)
    | [] => none

/-- Adds `**` unless the pattern already ends in one; two at the very start are both kept. -/
def addRecursive (items : List Item) : List Item :=
  match items with
  | .recursive :: _ :: _ => items
  | _ => .recursive :: items

/-- The items of a pattern, last one first.  `afterSeparator` holds at the start and behind a
separator of the pattern, where alone `**` can stand. -/
def readItems : Nat → Bool → List Item → List Char → Option (List Item)
  | 0, _, _, _ => none
  | _ + 1, _, items, [] => some items
  | fuel + 1, afterSeparator, items, c :: rest =>
    match c with
    | '?' => readItems fuel false (.anyChar :: items) rest
    | '*' =>
      match rest with
      | '*' :: '*' :: _ => none
      | '*' :: '/' :: rest =>
        if afterSeparator then readItems fuel true (addRecursive items) rest else none
      | ['*'] => if afterSeparator then some (addRecursive items) else none
      | '*' :: _ => none
      | _ => readItems fuel false (.sequence :: items) rest
    | '[' =>
      match readBracket rest with
      | some (item, rest) => readItems fuel false (item :: items) rest
      | none => none
    | _ => readItems fuel (c == '/') (.char c :: items) rest

/-- The items of a pattern that is one. -/
def ofText? (pattern : String) : Option (List Item) :=
  let cs := pattern.toList
  (readItems (cs.length + 1) true [] cs).map List.reverse

/-- Whether one character fits an item other than a sequence. -/
def Item.accepts (c : Char) : Item → Bool
  | .char a => c == a
  | .anyChar => c != '/'
  | .within ms => c != '/' && ms.any (·.contains c)
  | .except ms => c != '/' && !ms.any (·.contains c)
  | .sequence => false
  | .recursive => false

/-- The answer for a rest of the pattern and of the path.  A path that ended too early ends the whole
search: a wildcard that covers more leaves still less. -/
inductive Answer where
  | matched
  | mismatched
  | exhausted
  deriving Repr, DecidableEq

/-- Tries a rest of the pattern at the start of a path and behind every longer text a wildcard
covers.  One that crosses components stops only behind a separator and at the end. -/
def tryEach (crossing : Bool) (next : List Char → Answer) (path : List Char) : Answer :=
  match next path with
  | .mismatched => advance path
  | answer => answer
where
  advance : List Char → Answer
    | [] => next []
    | c :: rest =>
      if crossing then
        if c = '/' then
          match next rest with
          | .mismatched => advance rest
          | answer => answer
        else advance rest
      else if c = '/' then .mismatched
      else
        match next rest with
        | .mismatched => advance rest
        | answer => answer

/-- Matches the items against the whole path. -/
def run : List Item → List Char → Answer
  | [], [] => .matched
  | [], _ :: _ => .mismatched
  | .sequence :: items, path => tryEach false (run items) path
  | .recursive :: items, path => tryEach true (run items) path
  | _ :: _, [] => .exhausted
  | item :: items, c :: rest => if item.accepts c then run items rest else .mismatched

end Glob

/-- Whether a path fits a glob pattern; nothing fits what is none. -/
def globMatch (path pattern : String) : Bool :=
  match Glob.ofText? pattern with
  | some items => Glob.run items path.toList == .matched
  | none => false

end AccessControl
