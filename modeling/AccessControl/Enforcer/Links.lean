import AccessControl.Enforcer.Basic
/-!
# Role links of an enforcer

Every role definition has a manager that holds the links of its rows.  A new manager, or one whose
comparison of names changed, gets its links anew from the rows.
-/

namespace AccessControl

namespace Enforcer

variable {σ : Type}

/-- Gives every role definition a manager, and leaves those that have one. -/
def initManagers (e : Enforcer σ) : Enforcer σ :=
  let fresh : RoleManager :=
    { maxLevel := e.config.maxLevel, rejectCycles := e.config.rejectCycles }
  let add (managers : RoleManagers) (d : Definition) : RoleManagers :=
    if managers.contains d.key then managers else managers.put d.key fresh
  { e with managers := (e.model.definitions "g").foldl add e.managers }

/-- Clears every manager and gives it the links of the role rows. -/
def buildLinks (e : Enforcer σ) : Except Error Unit × Enforcer σ :=
  let (result, managers) := e.model.addLinks (e.managers.mapValues RoleManager.clear)
  (result, { e with managers })

/-- Clears one manager and gives it the links of its role rows. -/
def rebuildLinks (e : Enforcer σ) (name : String) : Except Error Unit × Enforcer σ :=
  match e.managers.find name with
  | none => (.error (.role (.missingManager name)), e)
  | some m =>
    let (result, m) := m.clear.applyRows .add (e.model.rows "g" name)
    (result, { e with managers := e.managers.put name m })

/-- Takes another manager for a role definition. -/
def setManager (e : Enforcer σ) (name : String) (m : RoleManager) :
    Except Error Unit × Enforcer σ :=
  ({ e with managers := e.managers.put name m }.dropPrograms).rebuildLinks name

/-- Changes how a manager compares names. -/
def changeManager (e : Enforcer σ) (name : String) (f : RoleManager → RoleManager) :
    Except Error Unit × Enforcer σ :=
  match e.managers.find name with
  | none => (.error (.role (.missingManager name)), e)
  | some m => ({ e with managers := e.managers.put name (f m) }.dropPrograms).rebuildLinks name

/-- Compares the role names of a definition by a function. -/
def setNameMatch (e : Enforcer σ) (name : String) (f : NameMatch) :
    Except Error Unit × Enforcer σ :=
  e.changeManager name fun m => { m with nameMatch := some f }

/-- Compares the domains of a role definition by a function. -/
def setDomainMatch (e : Enforcer σ) (name : String) (f : NameMatch) :
    Except Error Unit × Enforcer σ :=
  e.changeManager name fun m => { m with domainMatch := some f }

/-- Adds or drops the links of rows, all or none. -/
def linkRows (e : Enforcer σ) (name : String) (change : LinkChange) (rows : List Row) :
    Except Error Unit × Enforcer σ :=
  match e.managers.find name with
  | none => (.error (.role (.missingManager name)), e)
  | some m =>
    let (result, m) := m.applyBatch change rows
    (result, { e with managers := e.managers.put name m })

/-- Follows a change of rows, where links follow rows. -/
def followRows (e : Enforcer σ) (sec name : String) (change : LinkChange) (rows : List Row) :
    Except Error Unit × Enforcer σ :=
  if sec = "g" && e.config.autoLinks then e.linkRows name change rows else (.ok (), e)

end Enforcer

end AccessControl
