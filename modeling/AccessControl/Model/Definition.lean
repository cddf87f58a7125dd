import AccessControl.Error
import AccessControl.Number.Digits
import AccessControl.Text.Blank
import AccessControl.Text.Split
import Std.Data.HashMap
/-!
# Definitions and their rows

A definition is one line of a model, `p = sub, obj, act`.  Those of the sections `p` and `g` hold
rows, in order, with an index of how often each row occurs.  Rows of a definition with a priority
field are kept in the order of their priorities.

* `Definition.insert`       adds a row at its place
* `Definition.erase`        drops every copy of a row
* `Definition.replace`      puts one row for another
* `Definition.eraseWhere`   drops the rows that satisfy a test
-/

namespace AccessControl

/-- A row: the fields of a policy or a role link. -/
abbrev Row := List String

/-- A definition with its rows. -/
structure Definition where
  key : String
  /-- The text of the definition. -/
  value : String
  /-- The names of the fields, with the key in front in the sections `r` and `p`. -/
  fields : List String
  rows : List Row := []
  /-- How often each row occurs; rows that do not occur are not in it. -/
  counts : Std.HashMap Row Nat := ∅
  /-- The place of the priority field. -/
  priority : Option Nat := none

/-- The parts of a text between commas, without the blanks around them. -/
def splitFields (value : String) : List String :=
  (Text.splitAt ',' value.toList).map fun part => Text.trim (String.ofList part)

/-- A decimal integer with an optional sign. -/
def parseInteger? (s : String) : Option Int :=
  let (negative, digits) := match s.toList with
    | '-' :: rest => (true, rest)
    | '+' :: rest => (false, rest)
    | cs => (false, cs)
  if digits = [] || !digits.all Char.isDigit then none
  else
    let n := Number.decimalValue digits
    some (if negative then -(n : Int) else n)

/-- The largest priority, which rows without a readable one have. -/
def lastPriority : Int := (Number.twoTo 63 : Int) - 1

/-- The priority of a row by the field at an index: a 64-bit integer. -/
def rowPriority (index : Nat) (row : Row) : Int :=
  match row[index]?.bind parseInteger? with
  | some n => if Number.fitsInt64 n then n else lastPriority
  | none => lastPriority

/-- Whether the fields of a row from an index on are the values wanted; an empty value is no demand.  The index
is not bounded here: one near the largest word of the machine, to which the place of a value cannot be added
without overflow, is behind the last field of every row, as any other index of that size is. -/
def rowMatches (index : Nat) (values : List String) (row : Row) : Bool :=
  (values.zipIdx index).all fun (want, i) => want == "" || row[i]? == some want

namespace Definition

/-- The names of the fields of a definition. -/
def fieldNames (sec key value : String) : List String :=
  if sec = "r" || sec = "p" then (splitFields value).map fun f => key ++ "_" ++ f
  else if sec = "g" then splitFields value
  else []

/-- A definition without rows. -/
def make (sec key value : String) : Definition :=
  let fields := fieldNames sec key value
  { key, value, fields
    priority := if sec = "p" then fields.idxOf? (key ++ "_priority") else none }

/-- The place of a field. -/
def fieldIndex (d : Definition) (name : String) : Option Nat := d.fields.idxOf? name

def contains (d : Definition) (row : Row) : Bool := d.counts.contains row

/-- Refuses a row with the wrong number of fields. -/
def checkRow (d : Definition) (row : Row) : Except PolicyError Unit :=
  if row.length = d.fields.length then .ok ()
  else .error (.fieldCount d.key d.fields.length row.length)

/-- The first of the rows that does not fit. -/
def checkRows (d : Definition) : List Row → Except PolicyError Unit
  | [] => .ok ()
  | row :: rest =>
    match d.checkRow row with
    | .ok () => checkRows d rest
    | .error e => .error e

/-! ## The index -/

/-- Counts one more copy. -/
def countUp (counts : Std.HashMap Row Nat) (row : Row) : Std.HashMap Row Nat :=
  counts.insert row (counts.getD row 0 + 1)

/-- Counts one copy less; the last one takes the row out. -/
def countDown (counts : Std.HashMap Row Nat) (row : Row) : Std.HashMap Row Nat :=
  match counts[row]? with
  | some n => if n ≤ 1 then counts.erase row else counts.insert row (n - 1)
  | none => counts

/-! ## Changing rows -/

/-- Narrows a range of rows to the place of its last row that satisfies a test, where those that do come
first.  Half of the range goes in every round, so its size bounds `fuel`. -/
def narrow (before : Row → Bool) (rows : List Row) : (fuel start size : Nat) → Nat
  | 0, start, _ => start
  | fuel + 1, start, size =>
    if size ≤ 1 then start
    else
      let middle := start + size / 2
      narrow before rows fuel (if rows[middle]?.any before then middle else start) (size - size / 2)

/-- The number of rows that satisfy a test, where those that do come first. -/
def partitionPoint (before : Row → Bool) (rows : List Row) : Nat :=
  let last := narrow before rows rows.length 0 rows.length
  if rows[last]?.any before then last + 1 else last

/-- Puts a row behind all rows of lower or equal priority.  Its place is searched for by halving, which
finds it among rows in the order of their priorities. -/
def insertByPriority (index : Nat) (row : Row) (rows : List Row) : List Row :=
  let place := partitionPoint (fun r => decide (rowPriority index r ≤ rowPriority index row)) rows
  rows.take place ++ row :: rows.drop place

/-- The rows with one more, at its place. -/
def place (priority : Option Nat) (row : Row) (rows : List Row) : List Row :=
  match priority with
  | some index => insertByPriority index row rows
  | none => rows ++ [row]

/-- Adds a row, whether it is there or not. -/
def insert (d : Definition) (row : Row) : Definition :=
  { d with counts := countUp d.counts row, rows := place d.priority row d.rows }

/-- Adds rows one after the other. -/
def insertAll (d : Definition) (rows : List Row) : Definition := rows.foldl insert d

/-- Drops every copy of a row. -/
def erase (d : Definition) (row : Row) : Definition :=
  if d.contains row then
    { d with counts := d.counts.erase row, rows := d.rows.filter fun r => r != row }
  else d

/-- Drops every copy of every row given. -/
def eraseAll (d : Definition) (rows : List Row) : Definition := rows.foldl erase d

/-- The rows with `new` for the first `old`. -/
def swapFirst (old new : Row) : List Row → List Row
  | [] => []
  | r :: rest => if r = old then new :: rest else r :: swapFirst old new rest

/-- Puts a row for another one, in its place unless the priority differs. -/
def replace (d : Definition) (old new : Row) : Definition :=
  if old ∈ d.rows then
    let counts := countUp (countDown d.counts old) new
    match d.priority with
    | some index =>
      if rowPriority index old = rowPriority index new then
        { d with counts, rows := swapFirst old new d.rows }
      else { d with counts, rows := insertByPriority index new (d.rows.erase old) }
    | none => { d with counts, rows := swapFirst old new d.rows }
  else d

/-- Drops the rows that satisfy a test, and returns them in order. -/
def eraseWhere (d : Definition) (test : Row → Bool) : Definition × List Row :=
  let removed := d.rows.filter test
  ({ d with
      rows := d.rows.filter fun r => !test r
      counts := removed.foldl countDown d.counts }, removed)

/-- Drops all rows. -/
def clear (d : Definition) : Definition := { d with rows := [], counts := ∅ }

/-- Whether a batch holds a row that is there already or holds a row twice. -/
def repeatsRow (d : Definition) : List Row → Bool
  | [] => false
  | row :: rest => d.contains row || rest.contains row || repeatsRow d rest

/-- Whether a batch can be added as a unit, row by row: a row that does not fit is an error, one that
is there already or came before is an answer. -/
def acceptsBatch (d : Definition) (earlier : List Row) : List Row → Except PolicyError Bool
  | [] => .ok true
  | row :: rest =>
    match d.checkRow row with
    | .error e => .error e
    | .ok () =>
      if d.contains row || earlier.contains row then .ok false
      else acceptsBatch d (row :: earlier) rest

end Definition

end AccessControl
