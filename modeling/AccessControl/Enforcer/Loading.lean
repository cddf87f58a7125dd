import AccessControl.Enforcer.Links
import AccessControl.Model.Text
import AccessControl.Store.File
/-!
# Loading and saving

A load puts the lines of the store into a copy of the model without rows, sorts them, and takes the
copy only when the role links of all its rows fit.  A failed load leaves the rows as they were.

* `Enforcer.install`    take a loaded model
* `Enforcer.make`       a new enforcer, with the rows of its store
-/

namespace AccessControl

/-- The rows in the order in which they take part in decisions. -/
def Model.sorted (m : Model) : Model :=
  let m := m.sortByPriority
  if Enforcer.ordersBySubject m then m.sortBySubject else m

namespace Enforcer

variable {σ : Type} [PolicyStore σ]

/-- Takes a loaded model.  If its role links do not fit, the links of the old one come back. -/
def install (e : Enforcer σ) (m : Model) : Except Error Unit × Enforcer σ :=
  let loaded := { e with model := m.sorted }
  if e.config.autoLinks then
    match loaded.buildLinks with
    | (.ok (), loaded) => (.ok (), loaded)
    | (.error err, loaded) => (.error err, ({ loaded with model := e.model }.buildLinks).2)
  else (.ok (), loaded)

/-- Takes what came out of a load. -/
def finishLoad (e : Enforcer σ) :
    Except Error Unit × Model × σ → Except Error Unit × Enforcer σ
  | (.ok (), m, store) => { e with store }.install m
  | (.error err, _, store) => (.error err, { e with store })

/-- Puts the rows of the store in the place of those in memory. -/
def load (e : Enforcer σ) : Except Error Unit × Enforcer σ :=
  e.finishLoad (PolicyStore.load e.store e.model.clear)

/-- Puts the rows of the store that a filter accepts in the place of those in memory. -/
def loadFiltered (e : Enforcer σ) (filter : Filter) : Except Error Unit × Enforcer σ :=
  e.finishLoad (PolicyStore.loadFiltered e.store filter e.model.clear)

/-- Writes the rows in memory to the store, unless they are only a part of it. -/
def save (e : Enforcer σ) : Except Error Unit × Enforcer σ :=
  if e.isFiltered then (.error .filteredSave, e)
  else
    match PolicyStore.save e.store e.model.lines with
    | (.ok (), store) => (.ok (), { e with store })
    | (.error err, store) => (.error (.store err), { e with store })

/-- An enforcer with the rows of its store. -/
def make (model : Model) (store : σ) (config : EnforcerConfig) : Except Error (Enforcer σ) :=
  match model.checkEffects with
  | .error err => .error (.model err)
  | .ok () =>
    match ({ model, store, config } : Enforcer σ).initManagers.load with
    | (.ok (), e) => .ok e
    | (.error err, _) => .error err

/-- Takes another model and loads its rows from the store. -/
def setModel (e : Enforcer σ) (model : Model) : Except Error Unit × Enforcer σ :=
  match model.checkEffects with
  | .error err => (.error (.model err), e)
  | .ok () => ({ e with model, managers := [] }.initManagers.dropPrograms).load

end Enforcer

/-- The model in a file. -/
def Model.ofFile (f : TextFile) : Except Error Model :=
  match f.read with
  | .error e => .error (.io e)
  | .ok text =>
    match Model.ofText text with
    | .ok m => .ok m
    | .error e => .error (.model e)

/-- An enforcer with the model of one file and the rows of another. -/
def Enforcer.ofFiles {σ : Type} [PolicyStore σ] (modelFile : TextFile) (store : σ) :
    Except Error (Enforcer σ) :=
  match Model.ofFile modelFile with
  | .ok model => Enforcer.make model store {}
  | .error e => .error e

end AccessControl
