import AccessControl.Enforcer.Links
/-!
# Changing rows

A change goes through three places: the role links, the store (while changes are saved at once), and
the model.  Additions are linked before they are stored, so that a link that closes a cycle stops
them; removals are stored first.  A store that lacks an operation does not stop the change in memory.

* `Enforcer.addRows`, `Enforcer.removeRows`    all rows or none
* `Enforcer.removeFiltered`                    the rows with certain fields
* `Enforcer.updateRow`                         one row for another
* `Enforcer.clear`                             no rows at all
-/

namespace AccessControl

/-- The outcome of a store operation that may be missing. -/
def tolerate {α : Type} : Except StoreError α → Except Error Unit
  | .ok _ => .ok ()
  | .error (.notSupported _) => .ok ()
  | .error e => .error (.store e)

namespace Enforcer

variable {σ : Type}

/-- Changes the store, while changes are saved at once. -/
def persist {α : Type} (e : Enforcer σ) (change : σ → Except StoreError α × σ) :
    Except Error Unit × Enforcer σ :=
  if e.config.autoSave then
    let (result, store) := change e.store
    (tolerate result, { e with store })
  else (.ok (), e)

/-- Takes a model, whose rows are in order again if they changed. -/
def setRows (e : Enforcer σ) (m : Model) (changed : Bool) : Enforcer σ :=
  { e with model := if changed && ordersBySubject m then m.sortBySubject else m }

/-- Takes the outcome of a change of the model. -/
def finishChange (e : Enforcer σ) : Except Error (Model × Bool) → Except Error Bool × Enforcer σ
  | .ok (m, changed) => (.ok changed, e.setRows m changed)
  | .error err => (.error err, e)

variable [PolicyStore σ]

/-- Adds rows to the store: a single one by the operation for one. -/
def storeRows (sec name : String) (rows : List Row) (store : σ) : Except StoreError Bool × σ :=
  match rows with
  | [row] => PolicyStore.add store sec name row
  | rows => PolicyStore.addMany store sec name rows

/-- Drops rows from the store: a single one by the operation for one. -/
def unstoreRows (sec name : String) (rows : List Row) (store : σ) : Except StoreError Bool × σ :=
  match rows with
  | [row] => PolicyStore.remove store sec name row
  | rows => PolicyStore.removeMany store sec name rows

/-- Adds all rows, or none if one is there already or comes twice. -/
def addRows (e : Enforcer σ) (sec name : String) (rows : List Row) :
    Except Error Bool × Enforcer σ :=
  match e.model.find sec name with
  | .error err => (.error (.model err), e)
  | .ok d =>
    match d.checkRows rows with
    | .error err => (.error (.policy err), e)
    | .ok () =>
      if rows.isEmpty || d.repeatsRow rows then (.ok false, e)
      else
        match e.followRows sec name .add rows with
        | (.error err, e) => (.error err, e)
        | (.ok (), e) =>
          match e.persist (storeRows sec name rows) with
          | (.ok (), e) => e.finishChange (e.model.addMany sec name rows)
          | (.error err, e) =>
            match e.followRows sec name .remove rows with
            | (.ok (), e) => (.error err, e)
            | (.error other, e) => (.error other, e)

/-- Drops all rows given, or none if one is not there. -/
def removeRows (e : Enforcer σ) (sec name : String) (rows : List Row) :
    Except Error Bool × Enforcer σ :=
  match e.model.find sec name with
  | .error err => (.error (.model err), e)
  | .ok d =>
    if rows.isEmpty || !rows.all d.contains then (.ok false, e)
    else
      match e.persist (unstoreRows sec name rows) with
      | (.error err, e) => (.error err, e)
      | (.ok (), e) =>
        match e.followRows sec name .remove rows with
        | (.error err, e) => (.error err, e)
        | (.ok (), e) => e.finishChange (e.model.removeMany sec name rows)

/-- Drops the rows whose fields from an index on are the values given.  The answer is whether there
were any. -/
def removeFiltered (e : Enforcer σ) (sec name : String) (index : Nat) (values : List String) :
    Except Error Bool × Enforcer σ :=
  match e.model.find sec name with
  | .error err => (.error (.model err), e)
  | .ok _ =>
    match e.persist fun s => PolicyStore.removeFiltered s sec name index values with
    | (.error err, e) => (.error err, e)
    | (.ok (), e) =>
      match e.model.removeFiltered sec name index values with
      | .error err => (.error err, e)
      | .ok (m, []) => (.ok false, { e with model := m })
      | .ok (m, removed) =>
        match { e with model := m }.followRows sec name .remove removed with
        | (.error err, e) => (.error err, e)
        | (.ok (), e) => (.ok true, e.setRows e.model true)

/-- Puts the link of one row for that of another; if the new one does not fit, the old one comes
back. -/
def relinkRow (e : Enforcer σ) (sec name : String) (old new : Row) :
    Except Error Unit × Enforcer σ :=
  match e.followRows sec name .remove [old] with
  | (.error err, e) => (.error err, e)
  | (.ok (), e) =>
    match e.followRows sec name .add [new] with
    | (.ok (), e) => (.ok (), e)
    | (.error err, e) =>
      match e.followRows sec name .add [old] with
      | (.ok (), e) => (.error err, e)
      | (.error other, e) => (.error other, e)

/-- Takes `relinkRow` back. -/
def unlinkRow (e : Enforcer σ) (sec name : String) (old new : Row) :
    Except Error Unit × Enforcer σ :=
  match e.followRows sec name .remove [new] with
  | (.error err, e) => (.error err, e)
  | (.ok (), e) => e.followRows sec name .add [old]

/-- Puts a row for another.  Nothing happens if the old one is not there or the new one is there as
another row. -/
def updateRow (e : Enforcer σ) (sec name : String) (old new : Row) :
    Except Error Bool × Enforcer σ :=
  match e.model.find sec name with
  | .error err => (.error (.model err), e)
  | .ok d =>
    match d.checkRow new with
    | .error err => (.error (.policy err), e)
    | .ok () =>
      if !d.contains old || (new != old && d.contains new) then (.ok false, e)
      else
        match e.relinkRow sec name old new with
        | (.error err, e) => (.error err, e)
        | (.ok (), e) =>
          match e.persist fun s => PolicyStore.update s sec name old new with
          | (.ok (), e) => e.finishChange (e.model.replace sec name old new)
          | (.error err, e) =>
            match e.unlinkRow sec name old new with
            | (.ok (), e) => (.error err, e)
            | (.error other, e) => (.error other, e)

/-- Drops all rows and role links. -/
def clear (e : Enforcer σ) : Except Error Unit × Enforcer σ :=
  match e.persist PolicyStore.clear with
  | (.error err, e) => (.error err, e)
  | (.ok (), e) =>
    (.ok (), { e with
      model := e.model.clear
      managers := e.managers.mapValues RoleManager.clear })

end Enforcer

end AccessControl
