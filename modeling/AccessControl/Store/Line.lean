import AccessControl.Model.Basic
/-!
# Lines

Stores keep rows as lines: the name of the definition, then the fields.  The section of a line is the
first character of its name.

* `Filter.accepts`    whether a line is part of a filtered load
* `Model.addLines`    put lines into a model
* `Model.lines`       the lines of a model
-/

namespace AccessControl

/-- The name of a definition and the fields of one of its rows. -/
abbrev Line := List String

/-- What a partial load asks for: the values of the first fields of policy rows and of role rows.  An
empty value is no demand. -/
structure Filter where
  policy : List String := []
  roles : List String := []
  deriving Repr, DecidableEq

/-- Whether a line belongs to a partial load. -/
def Filter.accepts (f : Filter) : Line → Bool
  | [] => false
  | name :: fields =>
    match name.toList.head? with
    | some 'p' => rowMatches 0 f.policy fields
    | some 'g' => rowMatches 0 f.roles fields
    | _ => false

/-- The section of the definition with a name: its first character, if that is one byte long. -/
def sectionOf (name : String) : String :=
  match name.toList.head? with
  | some c => if c.toNat < 128 then String.singleton c else ""
  | none => ""

namespace Model

/-- Puts a line into a model.  Lines that are there already, and lines without a name, are no
matter. -/
def addLine (m : Model) : Line → Except Error Model
  | [] => .ok m
  | name :: fields =>
    match m.add (sectionOf name) name fields with
    | .ok (m, _) => .ok m
    | .error e => .error e

/-- Puts lines into a model, up to the first that does not fit. -/
def addLines (m : Model) : List Line → Except Error Unit × Model
  | [] => (.ok (), m)
  | line :: rest =>
    match m.addLine line with
    | .ok m => m.addLines rest
    | .error e => (.error e, m)

/-- The lines of all rows, those of section `p` first. -/
def lines (m : Model) : List Line :=
  (m.definitions "p" ++ m.definitions "g").flatMap fun d => d.rows.map fun row => d.key :: row

end Model

end AccessControl
