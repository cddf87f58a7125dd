import AccessControl.Text.Blank
/-!
# Reading comma-separated records

Records end at `\n`, `\r` or both; empty lines between records and lines that start with `#` are
skipped.  Quotes are special at the start of a field only; within them, two stand for one.  A field
that is open at the end of the text ends there.  Blanks around fields, inside or outside of quotes,
are dropped, and so is a byte order mark at the start of the text.

The reader takes one character at a time.

Records are read as csv 1.3 reads them, on csv-core 0.1, when it is asked to trim all fields, to take `#` for a
comment, to expect no line of headers and to take records of any length.

    `Csv.State.step`       one character: the next state, and the record that it completes if it does
    `Csv.records`          the records of a text
-/

namespace AccessControl.Csv

/-- A record with its place. -/
structure Record where
  /-- One more than the number of line feeds up to the end of the record before this one. -/
  line : Nat
  fields : List String
  deriving Repr, DecidableEq

/-- Where the reader stands. -/
inductive Place where
  /-- Between records. -/
  | outside
  | comment
  | fieldStart
  | plain
  | quoted
  /-- Behind a quote in a quoted field: the end of the quotes, or the first of two. -/
  | quote
  deriving Repr, DecidableEq

/-- The state of the reader. -/
structure State where
  place : Place := .outside
  /-- One more than the number of line feeds so far. -/
  line : Nat := 1
  /-- The line at which the current record was first looked for. -/
  opened : Nat := 1
  /-- The fields of the current record that are complete, the last one first. -/
  fields : List (List Char) := []
  /-- The characters of the current field, the last one first. -/
  field : List Char := []
  deriving Repr, DecidableEq

/-- The text of a field. -/
def fieldText (field : List Char) : String := Text.trim (String.ofList field.reverse)

namespace State

/-- Adds a character to the current field. -/
def put (s : State) (place : Place) (c : Char) : State := { s with place, field := c :: s.field }

/-- Starts the next field. -/
def nextField (s : State) : State :=
  { s with place := .fieldStart, fields := s.field :: s.fields, field := [] }

/-- The current record. -/
def record (s : State) : Record := ⟨s.opened, ((s.field :: s.fields).reverse).map fieldText⟩

/-- Ends the current record. -/
def endRecord (s : State) : State × Option Record :=
  ({ place := .outside, line := s.line, opened := s.line }, some s.record)

/-- A character of a field that is not quoted. -/
def stepPlain (s : State) (c : Char) : State × Option Record :=
  if c = ',' then (s.nextField, none)
  else if c = '\n' || c = '\r' then s.endRecord
  else (s.put .plain c, none)

/-- The first character of a field. -/
def stepField (s : State) (c : Char) : State × Option Record :=
  if c = '"' then ({ s with place := .quoted }, none) else s.stepPlain c

/-- Counts a line feed. -/
def count (s : State) (c : Char) : State := if c = '\n' then { s with line := s.line + 1 } else s

/-- Takes one character. -/
def step (s : State) (c : Char) : State × Option Record :=
  let s := s.count c
  match s.place with
  | .outside =>
    if c = '\n' || c = '\r' then (s, none)
    else if c = '#' then ({ s with place := .comment }, none)
    else s.stepField c
  | .comment => if c = '\n' then ({ s with place := .outside }, none) else (s, none)
  | .fieldStart => s.stepField c
  | .plain => s.stepPlain c
  | .quoted => if c = '"' then ({ s with place := .quote }, none) else (s.put .quoted c, none)
  | .quote => if c = '"' then (s.put .quoted c, none) else s.stepPlain c

/-- The record that is open at the end of the text. -/
def finish (s : State) : List Record :=
  match s.place with
  | .outside | .comment => []
  | _ => [s.record]

/-- The records that the rest of a text completes. -/
def records (s : State) : List Char → List Record
  | [] => s.finish
  | c :: rest =>
    let (s, done) := s.step c
    done.toList ++ s.records rest

end State

/-- A text without the byte order mark it may start with. -/
def dropMark : List Char → List Char
  | '\ufeff' :: rest => rest
  | cs => cs

/-- The records of a text. -/
def records (text : String) : List Record := ({} : State).records (dropMark text.toList)

end AccessControl.Csv
