import AccessControl.Effect.Stream
import AccessControl.Enforcer.Config
import AccessControl.Matcher.Evaluation
import AccessControl.Model.Links
import AccessControl.Model.Order
import AccessControl.Store.Basic
/-!
# Enforcers

An enforcer holds a model with its rows, the store they are kept in, the role managers that follow the
role rows, and what is needed to evaluate matchers.  Programs are compiled for the functions and role
definitions at hand, so they are dropped whenever these change.

Operations that can fail give their outcome together with the enforcer after them, for a failure too
can leave traces.

Left out is what gives no answer of its own: the lock around an enforcer that several threads share, which
makes every operation one on the enforcer inside, the log, and waiting for the store.  The managers are those
of `RoleManager`; another way to keep roles is no manager here.  Nothing runs out of stack or memory.
-/

namespace AccessControl

structure Enforcer (σ : Type) where
  model : Model
  store : σ
  functions : FunctionTable := .builtins
  effector : Effector := .standard
  managers : RoleManagers := []
  /-- The compiled programs, and the traced calls since the trace was last taken. -/
  evaluation : EvalState := {}
  config : EnforcerConfig := {}

namespace Enforcer

variable {σ : Type}

/-- What matchers can call. -/
def scope (e : Enforcer σ) : Scope := ⟨e.functions, e.managers⟩

/-- Drops the compiled programs. -/
def dropPrograms (e : Enforcer σ) : Enforcer σ :=
  { e with evaluation := { e.evaluation with programs := [] } }

/-- The traced calls in order, and the enforcer without them. -/
def takeTrace (e : Enforcer σ) : List (List Value) × Enforcer σ :=
  (e.evaluation.trace, { e with evaluation := { e.evaluation with trace := [] } })

/-- Whether the default effect goes by the depth of subjects. -/
def ordersBySubject (m : Model) : Bool :=
  (m.find? "e" "e").any fun d =>
    match EffectKind.ofText d.value with
    | .ok kind => kind == .subjectPriority
    | .error _ => false

/-! ## Settings and parts -/

def enable (e : Enforcer σ) (on : Bool) : Enforcer σ :=
  { e with config := { e.config with enabled := on } }

def enableLog (e : Enforcer σ) (on : Bool) : Enforcer σ :=
  { e with config := { e.config with logEnabled := on } }

def enableAutoSave (e : Enforcer σ) (on : Bool) : Enforcer σ :=
  { e with config := { e.config with autoSave := on } }

def enableAutoLinks (e : Enforcer σ) (on : Bool) : Enforcer σ :=
  { e with config := { e.config with autoLinks := on } }

/-- Takes another store; rows are not loaded from it. -/
def setStore (e : Enforcer σ) (store : σ) : Enforcer σ := { e with store }

def setEffector (e : Enforcer σ) (effector : Effector) : Enforcer σ := { e with effector }

/-- Registers a function, in the place of one of that name if there is one. -/
def addFunction (e : Enforcer σ) (name : String) (f : MatcherFunction) : Enforcer σ :=
  { e with functions := e.functions.put name f }.dropPrograms

/-- Takes a function away.  The answer is whether it was there. -/
def removeFunction (e : Enforcer σ) (name : String) : Bool × Enforcer σ :=
  if e.functions.contains name then
    (true, { e with functions := e.functions.remove name }.dropPrograms)
  else (false, e)

/-- Whether the rows in memory are a filtered part of the store. -/
def isFiltered [PolicyStore σ] (e : Enforcer σ) : Bool := PolicyStore.isFiltered e.store

end Enforcer

end AccessControl
