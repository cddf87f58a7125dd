import AccessControl.Enforcer.Changes
import AccessControl.Enforcer.Enforcement
import AccessControl.Enforcer.Loading
/-!
# Authorizers

What enforcers and everything put around them have in common: requests can be decided, rows can be
read and changed.  The interfaces for policies and for roles rest on these operations alone.
-/

namespace AccessControl

/-- The operations of an authorizer. -/
class Authorizer (α : Type) where
  /-- The model with its rows. -/
  model : α → Model
  managers : α → RoleManagers
  decide : α → Context → List Value → Except Error Decision × α
  addRows : α → (sec name : String) → List Row → Except Error Bool × α
  removeRows : α → (sec name : String) → List Row → Except Error Bool × α
  removeFiltered : α → (sec name : String) → Nat → List String → Except Error Bool × α
  updateRow : α → (sec name : String) → (old new : Row) → Except Error Bool × α
  load : α → Except Error Unit × α
  save : α → Except Error Unit × α
  clear : α → Except Error Unit × α

instance {σ : Type} [PolicyStore σ] : Authorizer (Enforcer σ) where
  model e := e.model
  managers e := e.managers
  decide := Enforcer.enforce
  addRows := Enforcer.addRows
  removeRows := Enforcer.removeRows
  removeFiltered := Enforcer.removeFiltered
  updateRow := Enforcer.updateRow
  load := Enforcer.load
  save := Enforcer.save
  clear := Enforcer.clear

namespace Authorizer

variable {α : Type} [Authorizer α]

/-- Decides a request by the default definitions. -/
def authorize (a : α) (request : List Value) : Except Error Decision × α := decide a {} request

/-- The rows of a definition. -/
def rows (a : α) (sec name : String) : List Row := (model a).rows sec name

/-- The rows of a definition whose fields from an index on are the values given. -/
def filteredRows (a : α) (sec name : String) (index : Nat) (values : List String) : List Row :=
  (model a).filteredRows sec name index values

def hasRow (a : α) (sec name : String) (row : Row) : Bool := (model a).hasRow sec name row

/-- The manager of a role definition. -/
def manager (a : α) (name : String) : Except Error RoleManager :=
  match (managers a).find name with
  | some m => .ok m
  | none => .error (.role (.missingManager name))

/-- The direct roles of a user. -/
def directRoles (a : α) (name user : String) (domain : Option String) :
    Except Error (List String) :=
  (manager a name).map fun m => m.roles user domain

/-- The direct users of a role. -/
def directUsers (a : α) (name role : String) (domain : Option String) :
    Except Error (List String) :=
  (manager a name).map fun m => m.users role domain

end Authorizer

end AccessControl
