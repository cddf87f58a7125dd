import AccessControl.Enforcer.Basic
import AccessControl.Enforcer.Decision
/-!
# Enforcement

A request is tried against the rows of a policy definition in order.  The rows whose matcher holds
contribute their effects until the decision is settled; a row whose matcher fails is left out.  If
there are no rows, the matcher is evaluated once with all policy fields empty, and allows if it holds.

* `Model.question`      the definitions that take part, or what is wrong with them
* `scanRows`            the rows one after the other
* `Enforcer.enforce`    the decision
-/

namespace AccessControl

/-- A request with the definitions it is decided by. -/
structure Question where
  requestFields : List String
  request : List Value
  policy : Definition
  kind : EffectKind
  matcher : String

/-- The question a request asks in a context. -/
def Model.question (m : Model) (ctx : Context) (request : List Value) : Except ModelError Question :=
  match m.find "r" ctx.request with
  | .error e => .error e
  | .ok r =>
    if request.length ≠ r.fields.length then
      .error (.requestArity r.fields.length request.length)
    else
      match m.find "p" ctx.policy with
      | .error e => .error e
      | .ok policy =>
        match m.find "e" ctx.effect with
        | .error e => .error e
        | .ok effect =>
          match EffectKind.ofText effect.value with
          | .error e => .error e
          | .ok kind =>
            match m.find "m" ctx.matcher with
            | .error e => .error e
            | .ok matcher => .ok ⟨r.fields, request, policy, kind, matcher.value⟩

namespace Question

/-- The names of a matcher for one row. -/
def bindings (q : Question) (row : Row) : Bindings :=
  ⟨q.requestFields, q.request, q.policy.fields, row⟩

/-- Whether the matcher holds for a row.  A matcher that fails does not. -/
def matchesRow (q : Question) (program : Program) (scope : Scope) (row : Row) (state : EvalState) :
    Bool × EvalState :=
  match (program.evaluate scope (q.bindings row)).run state with
  | (.ok b, state) => (b, state)
  | (.error _, state) => (false, state)

/-- What a matching row contributes. -/
def effectOf (q : Question) (row : Row) : Effect :=
  Effect.ofField ((q.policy.fieldIndex (q.policy.key ++ "_eft")).bind fun i => row[i]?)

end Question

/-- The state of a scan: the effects, and the rows that contributed them. -/
structure Scan where
  combination : Combination
  matched : List Row

/-- Takes the effect of a matching row. -/
def Scan.push (s : Scan) (effect : Effect) (row : Row) : Scan :=
  ⟨s.combination.push effect, s.matched ++ [row]⟩

/-- The decision so far, with the row that its ruling points to. -/
def Scan.decision (s : Scan) : Decision :=
  let ruling := s.combination.ruling
  ⟨ruling.allowed, (ruling.explain.bind fun i => s.matched[i]?).toList⟩

/-- Tries rows until the decision is settled. -/
def scanRows (test : Row → EvalState → Bool × EvalState) (effectOf : Row → Effect) (s : Scan)
    (state : EvalState) : List Row → Scan × EvalState
  | [] => (s, state)
  | row :: rest =>
    match test row state with
    | (false, state) => scanRows test effectOf s state rest
    | (true, state) =>
      let s := s.push (effectOf row) row
      if s.combination.ruling.decided then (s, state) else scanRows test effectOf s state rest

/-- The decision of a program. -/
def Question.decide (q : Question) (program : Program) (scope : Scope) (effector : Effector)
    (state : EvalState) : Decision × EvalState :=
  let start : Scan := ⟨.start effector q.kind, []⟩
  if q.policy.rows.isEmpty then
    match q.matchesRow program scope [] state with
    | (true, state) => (⟨(start.combination.push .allow).ruling.allowed, []⟩, state)
    | (false, state) => (⟨start.combination.ruling.allowed, []⟩, state)
  else
    let (s, state) := scanRows (q.matchesRow program scope) q.effectOf start state q.policy.rows
    (s.decision, state)

namespace Enforcer

variable {σ : Type}

/-- Decides a request by the definitions of a context. -/
def enforce (e : Enforcer σ) (ctx : Context) (request : List Value) :
    Except Error Decision × Enforcer σ :=
  if e.config.enabled then
    match e.model.question ctx request with
    | .error err => (.error (.model err), e)
    | .ok q =>
      match (EvalM.compile e.scope q.matcher).run e.evaluation with
      | (.error err, state) => (.error (.matcher err), { e with evaluation := state })
      | (.ok program, state) =>
        let (decision, state) := q.decide program e.scope e.effector state
        (.ok decision, { e with evaluation := state })
  else (.ok { allowed := true }, e)

end Enforcer

end AccessControl
