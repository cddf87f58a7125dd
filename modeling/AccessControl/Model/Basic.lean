import AccessControl.Distinct
import AccessControl.Model.Definition
import AccessControl.Table
/-!
# Models

A model holds definitions in sections: `r` for requests, `p` for policy rows, `g` for role links, `e`
for effects and `m` for matchers.  Definitions keep the order in which they were added.  Rows live in
the definitions of `p` and `g`; every operation below that changes rows refuses other sections.

* `Model.find`                        a definition, for reading
* `Model.findRows`                    a definition that holds rows, for changing them
* `Model.add`, `Model.addMany`        add rows; a row that is there already is an answer, no error
* `Model.remove`, `Model.removeMany`  drop rows
* `Model.removeFiltered`              drop the rows with certain fields
* `Model.replace`                     one row for another
-/

namespace AccessControl

/-- Definitions by section and name. -/
structure Model where
  sections : Table (Table Definition) := []

namespace Model

/-! ## Definitions -/

/-- The definitions of a section, in order. -/
def definitions (m : Model) (sec : String) : List Definition :=
  ((m.sections.find sec).map Table.values).getD []

/-- Adds a definition without rows, in the place of the old one of that name if there is one.  The
answer is whether there was a text to add. -/
def define (m : Model) (sec key value : String) : Model × Bool :=
  if value.isEmpty then (m, false)
  else
    let defs := (m.sections.find sec).getD []
    (⟨m.sections.put sec (defs.put key (.make sec key value))⟩, true)

/-- Whether a section has definitions. -/
def hasSection (m : Model) (sec : String) : Bool := !(m.definitions sec).isEmpty

/-- A definition, if it is there. -/
def find? (m : Model) (sec name : String) : Option Definition :=
  (m.sections.find sec).bind fun defs => defs.find name

/-- A definition. -/
def find (m : Model) (sec name : String) : Except ModelError Definition :=
  match m.find? sec name with
  | some d => .ok d
  | none => .error (.unknownDefinition sec name)

/-- A definition whose rows are to be changed. -/
def findRows (m : Model) (sec name : String) : Except Error Definition :=
  if sec = "p" || sec = "g" then
    match m.find sec name with
    | .ok d => .ok d
    | .error e => .error (.model e)
  else .error (.policy (.unknownSection sec))

/-- Changes one definition. -/
def modify (m : Model) (sec name : String) (f : Definition → Definition) : Model :=
  ⟨m.sections.update sec fun defs => defs.update name f⟩

/-- Changes all definitions of a section. -/
def modifyAll (m : Model) (sec : String) (f : Definition → Definition) : Model :=
  ⟨m.sections.update sec fun defs => defs.mapValues f⟩

/-! ## Changing rows -/

/-- Adds a row.  The answer is whether it was new. -/
def add (m : Model) (sec name : String) (row : Row) : Except Error (Model × Bool) :=
  match m.findRows sec name with
  | .error e => .error e
  | .ok d =>
    match d.checkRow row with
    | .error e => .error (.policy e)
    | .ok () =>
      if d.contains row then .ok (m, false)
      else .ok (m.modify sec name (·.insert row), true)

/-- Adds all rows, or none if one is there already or comes twice. -/
def addMany (m : Model) (sec name : String) (rows : List Row) : Except Error (Model × Bool) :=
  match m.findRows sec name with
  | .error e => .error e
  | .ok d =>
    match d.acceptsBatch [] rows with
    | .error e => .error (.policy e)
    | .ok false => .ok (m, false)
    | .ok true => .ok (m.modify sec name (·.insertAll rows), true)

/-- Adds all rows, also those that are there already. -/
def addDuplicates (m : Model) (sec name : String) (rows : List Row) : Except Error Model :=
  match m.findRows sec name with
  | .error e => .error e
  | .ok d =>
    match d.checkRows rows with
    | .error e => .error (.policy e)
    | .ok () => .ok (m.modify sec name (·.insertAll rows))

/-- Drops every copy of a row.  The answer is whether there was one. -/
def remove (m : Model) (sec name : String) (row : Row) : Except Error (Model × Bool) :=
  match m.findRows sec name with
  | .error e => .error e
  | .ok d => .ok (m.modify sec name (·.erase row), d.contains row)

/-- Drops all rows given, or none if one is not there. -/
def removeMany (m : Model) (sec name : String) (rows : List Row) : Except Error (Model × Bool) :=
  match m.findRows sec name with
  | .error e => .error e
  | .ok d =>
    if rows.all d.contains then .ok (m.modify sec name (·.eraseAll rows), true)
    else .ok (m, false)

/-- Puts a row for another.  Nothing happens if the old one is not there or the new one is there as
another row. -/
def replace (m : Model) (sec name : String) (old new : Row) : Except Error (Model × Bool) :=
  match m.findRows sec name with
  | .error e => .error e
  | .ok d =>
    match d.checkRow new with
    | .error e => .error (.policy e)
    | .ok () =>
      if !d.contains old || (new != old && d.contains new) then .ok (m, false)
      else .ok (m.modify sec name (·.replace old new), d.rows.contains old)

/-- Drops the rows whose fields from an index on are the values given, and returns them.  No values
drop no rows. -/
def removeFiltered (m : Model) (sec name : String) (index : Nat) (values : List String) :
    Except Error (Model × List Row) :=
  match m.findRows sec name with
  | .error e => .error e
  | .ok d =>
    if values.isEmpty then .ok (m, [])
    else
      let test := rowMatches index values
      .ok (m.modify sec name fun d => (d.eraseWhere test).1, (d.eraseWhere test).2)

/-- Drops all rows and keeps the definitions. -/
def clear (m : Model) : Model := (m.modifyAll "p" Definition.clear).modifyAll "g" Definition.clear

/-! ## Reading rows -/

/-- The rows of a definition; one that is not there has none. -/
def rows (m : Model) (sec name : String) : List Row := ((m.find? sec name).map (·.rows)).getD []

/-- The rows whose fields from an index on are the values given. -/
def filteredRows (m : Model) (sec name : String) (index : Nat) (values : List String) : List Row :=
  (m.rows sec name).filter (rowMatches index values)

/-- Whether a definition holds a row. -/
def hasRow (m : Model) (sec name : String) (row : Row) : Bool :=
  (m.find? sec name).any fun d => d.contains row

/-- The distinct values of one field, as they come up. -/
def fieldValues (m : Model) (sec name : String) (index : Nat) : List String :=
  distinct ((m.rows sec name).filterMap (·[index]?))

end Model

end AccessControl
