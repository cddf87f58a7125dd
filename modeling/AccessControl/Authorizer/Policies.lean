import AccessControl.Authorizer.Basic
/-!
# Policies

Policy rows and role rows under the names that applications use for them.  Where no definition is
named, `p` and `g` are meant.
-/

namespace AccessControl.Authorizer

variable {α : Type} [Authorizer α]

/-! ## Reading -/

def policy (a : α) : List Row := rows a "p" "p"

def namedPolicy (a : α) (name : String) : List Row := rows a "p" name

def filteredPolicy (a : α) (index : Nat) (values : List String) : List Row :=
  filteredRows a "p" "p" index values

def grouping (a : α) : List Row := rows a "g" "g"

def namedGrouping (a : α) (name : String) : List Row := rows a "g" name

def hasPolicy (a : α) (row : Row) : Bool := hasRow a "p" "p" row

def hasGrouping (a : α) (row : Row) : Bool := hasRow a "g" "g" row

/-- The first fields of the policy rows. -/
def allSubjects (a : α) : List String := (model a).fieldValues "p" "p" 0

/-- The second fields of the policy rows. -/
def allObjects (a : α) : List String := (model a).fieldValues "p" "p" 1

/-- The third fields of the policy rows. -/
def allActions (a : α) : List String := (model a).fieldValues "p" "p" 2

/-- The second fields of the role rows. -/
def allRoles (a : α) : List String := (model a).fieldValues "g" "g" 1

/-! ## Changing -/

def addPolicy (a : α) (row : Row) : Except Error Bool × α := addRows a "p" "p" [row]

def addPolicies (a : α) (rows : List Row) : Except Error Bool × α := addRows a "p" "p" rows

def addNamedPolicy (a : α) (name : String) (row : Row) : Except Error Bool × α :=
  addRows a "p" name [row]

def removePolicy (a : α) (row : Row) : Except Error Bool × α := removeRows a "p" "p" [row]

def removePolicies (a : α) (rows : List Row) : Except Error Bool × α := removeRows a "p" "p" rows

def removeFilteredPolicy (a : α) (index : Nat) (values : List String) : Except Error Bool × α :=
  removeFiltered a "p" "p" index values

def updatePolicy (a : α) (old new : Row) : Except Error Bool × α := updateRow a "p" "p" old new

def addGrouping (a : α) (row : Row) : Except Error Bool × α := addRows a "g" "g" [row]

def addNamedGrouping (a : α) (name : String) (row : Row) : Except Error Bool × α :=
  addRows a "g" name [row]

def addGroupings (a : α) (rows : List Row) : Except Error Bool × α := addRows a "g" "g" rows

def removeGrouping (a : α) (row : Row) : Except Error Bool × α := removeRows a "g" "g" [row]

def removeGroupings (a : α) (rows : List Row) : Except Error Bool × α := removeRows a "g" "g" rows

def removeFilteredGrouping (a : α) (index : Nat) (values : List String) : Except Error Bool × α :=
  removeFiltered a "g" "g" index values

end AccessControl.Authorizer
