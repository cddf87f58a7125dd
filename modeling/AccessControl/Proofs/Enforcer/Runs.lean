import AccessControl.Enforcer.Enforcement
import AccessControl.Proofs.Enforcer.SameSetup
/-!
# Runs of an enforcer

`Call` lists what can be done to an enforcer, and `Reachable` is every state that calls lead to, whatever
they answer.  The store is any store, so nothing is known about its answers.

    c.onRows → e.SameSetup (e.perform c).2                                  (`sameSetup_perform`)
-/

namespace AccessControl

namespace Enforcer

variable {σ : Type}

/-- What can be done to an enforcer. -/
inductive Call (σ : Type) where
  | enable (on : Bool)
  | enableLog (on : Bool)
  | enableAutoSave (on : Bool)
  | enableAutoLinks (on : Bool)
  | setStore (store : σ)
  | setEffector (effector : Effector)
  | addFunction (name : String) (f : MatcherFunction)
  | removeFunction (name : String)
  | setModel (model : Model) (built : model.Built)
  | setManager (name : String) (m : RoleManager)
  | setNameMatch (name : String) (f : NameMatch)
  | setDomainMatch (name : String) (f : NameMatch)
  | buildLinks
  | load
  | loadFiltered (filter : Filter)
  | save
  | addRows (sec name : String) (rows : List Row)
  | removeRows (sec name : String) (rows : List Row)
  | removeFiltered (sec name : String) (index : Nat) (values : List String)
  | updateRow (sec name : String) (old new : Row)
  | clear
  | enforce (ctx : Context) (request : List Value)
  | takeTrace

/-- Whether a call succeeded, and the enforcer after it. -/
def outcome {α : Type} (answer : Except Error α × Enforcer σ) : Except Error Unit × Enforcer σ :=
  (answer.1.map fun _ => (), answer.2)

/-- Whether a call leaves all but the store, the rows and the links alone. -/
def Call.onRows : Call σ → Bool
  | .setStore _ | .buildLinks | .load | .loadFiltered _ | .save | .addRows .. | .removeRows ..
  | .removeFiltered .. | .updateRow .. | .clear => true
  | _ => false

variable [PolicyStore σ]

/-- Does what a call says. -/
def perform (e : Enforcer σ) : Call σ → Except Error Unit × Enforcer σ
  | .enable on => (.ok (), e.enable on)
  | .enableLog on => (.ok (), e.enableLog on)
  | .enableAutoSave on => (.ok (), e.enableAutoSave on)
  | .enableAutoLinks on => (.ok (), e.enableAutoLinks on)
  | .setStore store => (.ok (), e.setStore store)
  | .setEffector effector => (.ok (), e.setEffector effector)
  | .addFunction name f => (.ok (), e.addFunction name f)
  | .removeFunction name => (.ok (), (e.removeFunction name).2)
  | .setModel model _ => e.setModel model
  | .setManager name m => e.setManager name m
  | .setNameMatch name f => e.setNameMatch name f
  | .setDomainMatch name f => e.setDomainMatch name f
  | .buildLinks => e.buildLinks
  | .load => e.load
  | .loadFiltered filter => e.loadFiltered filter
  | .save => e.save
  | .addRows sec name rows => outcome (e.addRows sec name rows)
  | .removeRows sec name rows => outcome (e.removeRows sec name rows)
  | .removeFiltered sec name index values => outcome (e.removeFiltered sec name index values)
  | .updateRow sec name old new => outcome (e.updateRow sec name old new)
  | .clear => e.clear
  | .enforce ctx request => outcome (e.enforce ctx request)
  | .takeTrace => (.ok (), e.takeTrace.2)

/-- What calls lead to from a start, when each is allowed in the state it is made in. -/
inductive Reachable (start : Enforcer σ → Prop) (allowed : Enforcer σ → Call σ → Prop) :
    Enforcer σ → Prop where
  | start {e : Enforcer σ} (h : start e) : Reachable start allowed e
  | step {e : Enforcer σ} (c : Call σ) (h : Reachable start allowed e) (hc : allowed e c) :
      Reachable start allowed (e.perform c).2

theorem Reachable.mono {start other : Enforcer σ → Prop} {allowed : Enforcer σ → Call σ → Prop}
    (hstart : ∀ e, start e → other e) {e : Enforcer σ} (h : Reachable start allowed e) :
    Reachable other allowed e := by
  induction h with
  | start h => exact .start (hstart _ h)
  | step c _ hc ih => exact ih.step c hc

theorem Reachable.mono_calls {start : Enforcer σ → Prop} {allowed more : Enforcer σ → Call σ → Prop}
    (hcalls : ∀ e c, allowed e c → more e c) {e : Enforcer σ} (h : Reachable start allowed e) :
    Reachable start more e := by
  induction h with
  | start h => exact .start h
  | step c _ hc ih => exact ih.step c (hcalls _ c hc)

/-- A new enforcer. -/
def Made (e : Enforcer σ) : Prop :=
  ∃ model store config, model.Built ∧ Enforcer.make model store config = .ok e

theorem sameSetup_perform (e : Enforcer σ) {c : Call σ} (h : c.onRows = true) : e.SameSetup (e.perform c).2 := by
  cases c with
  | setStore store => exact e.sameSetup_store store
  | buildLinks => exact sameSetup_buildLinks rfl
  | load => exact sameSetup_load rfl
  | loadFiltered => exact sameSetup_loadFiltered rfl
  | save => exact sameSetup_save rfl
  | addRows => exact sameSetup_steps (steps_addRows rfl)
  | removeRows => exact sameSetup_steps (steps_removeRows rfl)
  | removeFiltered => exact sameSetup_steps (steps_removeFiltered rfl)
  | updateRow => exact sameSetup_steps (steps_updateRow rfl)
  | clear => exact sameSetup_clear rfl
  | _ => simp [Call.onRows] at h

end Enforcer

end AccessControl
