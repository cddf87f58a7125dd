import AccessControl.Model.Basic
import AccessControl.Roles.Manager
/-!
# Role links of a model

A row of a role definition is a link from its first field to its second, in the domain that is its
third field; further fields do not matter.  Batches are taken row by row and stop at the first row
that fails, so the manager that comes out holds the rows before it.
-/

namespace AccessControl

/-- What happens to the links of some rows. -/
inductive LinkChange where
  | add
  | remove
  deriving Repr, DecidableEq

/-- The change that takes a change back. -/
def LinkChange.inverse : LinkChange → LinkChange
  | .add => .remove
  | .remove => .add

namespace RoleManager

/-- Adds or drops the link of a row in place. -/
def changeRow (m : RoleManager) (change : LinkChange) : Row → Except Error Unit × RoleManager
  | name :: role :: rest =>
    match change with
    | .add =>
      match m.insertLink name role rest.head? with
      | (.ok (), m) => (.ok (), m)
      | (.error e, m) => (.error (.role e), m)
    | .remove => (.ok (), m.deleteLink name role rest.head?)
  | row => (.error (.policy (.fieldCount "g" 2 row.length)), m)

/-- The manager after the change of a row, or why it fails. -/
def applyRow (m : RoleManager) (change : LinkChange) (row : Row) : Except Error RoleManager :=
  match m.changeRow change row with
  | (.ok (), m) => .ok m
  | (.error e, _) => .error e

/-- Adds or drops the links of rows, up to the first row that fails. -/
def applyRows (m : RoleManager) (change : LinkChange) : List Row → Except Error Unit × RoleManager
  | [] => (.ok (), m)
  | row :: rest =>
    match m.changeRow change row with
    | (.ok (), m) => m.applyRows change rest
    | (.error e, m) => (.error e, m)

/-- Adds or drops the links of rows.  If one fails, the change of those before it is taken back. -/
def applyBatch (m : RoleManager) (change : LinkChange) (rows : List Row) :
    Except Error Unit × RoleManager := go m [] rows
where
  /-- The rows `done` went through, the last one first. -/
  go (m : RoleManager) (done : List Row) : List Row → Except Error Unit × RoleManager
    | [] => (.ok (), m)
    | row :: rest =>
      match m.changeRow change row with
      | (.ok (), m) => go m (row :: done) rest
      | (.error e, m) => (.error e, (m.applyRows change.inverse done.reverse).2)

end RoleManager

/-- Adds the links of role definitions to their managers, up to the first failure. -/
def RoleManagers.addRows (managers : RoleManagers) :
    List Definition → Except Error Unit × RoleManagers
  | [] => (.ok (), managers)
  | d :: rest =>
    match managers.find d.key with
    | none => (.error (.role (.missingManager d.key)), managers)
    | some m =>
      match m.applyRows .add d.rows with
      | (.ok (), m) => RoleManagers.addRows (managers.put d.key m) rest
      | (.error e, m) => (.error e, managers.put d.key m)

/-- Adds the links of all role rows of a model. -/
def Model.addLinks (m : Model) (managers : RoleManagers) : Except Error Unit × RoleManagers :=
  managers.addRows (m.definitions "g")

end AccessControl
