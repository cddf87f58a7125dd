import AccessControl.Authorizer.Basic
import AccessControl.Roles.Inherited
/-!
# Roles and permissions

Users, roles and permissions in terms of the role definition `g` and the policy definition `p`.  A
permission is the part of a policy row behind its subject.
-/

namespace AccessControl.Authorizer

variable {α : Type} [Authorizer α]

/-- The row that gives a user a role. -/
def roleRow (user role : String) (domain : Option String) : Row := user :: role :: domain.toList

/-! ## Reading -/

def rolesForUser (a : α) (user : String) (domain : Option String) : Except Error (List String) :=
  directRoles a "g" user domain

def usersForRole (a : α) (role : String) (domain : Option String) : Except Error (List String) :=
  directUsers a "g" role domain

def hasRole (a : α) (user role : String) (domain : Option String) : Except Error Bool :=
  (rolesForUser a user domain).map fun roles => roles.contains role

/-- The rows with a user as subject, in a domain that is the second field if one is given. -/
def permissions (a : α) (user : String) (domain : Option String) : List Row :=
  filteredRows a "p" "p" 0 (user :: domain.toList)

def hasPermission (a : α) (user : String) (permission : List String) : Bool :=
  hasRow a "p" "p" (user :: permission)

/-- All roles of a user, the nearest first. -/
def implicitRoles (a : α) (user : String) (domain : Option String) : Except Error (List String) :=
  (manager a "g").map fun m => m.inherited user domain

/-- The rows with a user or one of its roles as subject. -/
def implicitPermissions (a : α) (user : String) (domain : Option String) :
    Except Error (List Row) :=
  (implicitRoles a user domain).map fun roles =>
    (user :: roles).flatMap fun subject => permissions a subject domain

/-! ## Changing -/

def addRole (a : α) (user role : String) (domain : Option String) : Except Error Bool × α :=
  addRows a "g" "g" [roleRow user role domain]

def deleteRoleForUser (a : α) (user role : String) (domain : Option String) :
    Except Error Bool × α :=
  removeRows a "g" "g" [roleRow user role domain]

/-- Takes all roles from a user, in one domain if one is given. -/
def deleteRolesForUser (a : α) (user : String) (domain : Option String) : Except Error Bool × α :=
  removeFiltered a "g" "g" 0 (roleRow user "" domain)

/-- Drops the role rows with a name in one field, then the policy rows with it as subject. -/
def deleteName (a : α) (index : Nat) (name : String) : Except Error Bool × α :=
  match removeFiltered a "g" "g" index [name] with
  | (.error e, a) => (.error e, a)
  | (.ok links, a) =>
    match removeFiltered a "p" "p" 0 [name] with
    | (.error e, a) => (.error e, a)
    | (.ok rules, a) => (.ok (links || rules), a)

/-- Drops what a user has. -/
def deleteUser (a : α) (user : String) : Except Error Bool × α := deleteName a 0 user

/-- Drops a role from its users, and what it has. -/
def deleteRole (a : α) (role : String) : Except Error Bool × α := deleteName a 1 role

def addPermission (a : α) (user : String) (permission : List String) : Except Error Bool × α :=
  addRows a "p" "p" [user :: permission]

def deletePermission (a : α) (user : String) (permission : List String) : Except Error Bool × α :=
  removeRows a "p" "p" [user :: permission]

end AccessControl.Authorizer
