import AccessControl.Proofs.Matcher.Derivations
import Mathlib
/-!
# How deep stored texts are evaluated

The text of an `eval` is data: it has nothing to do with the size of the expression it stands in, and may call
`eval` on itself.  What ends an evaluation is the level.  An expression calls on its parts at its own level, and
on a stored text one level above, up to `maxEvalDepth`; a call of `eval` there is an error, once its argument
has a value, and the text is not looked at.

    event ∈ log → event.EvaluatedAbove level                           (`Evaluates.above`)
    (eval (arg)) at `maxEvalDepth` has the events and the state of arg, and fails
                                                                       (`evaluates_eval_iff_of_full`)
-/

namespace AccessControl

variable {scope : Scope} {bindings : Bindings}

/-- A text of an evaluation at a level is evaluated above it, and not above `maxEvalDepth`. -/
def EvalEvent.EvaluatedAbove (level : Nat) : EvalEvent → Prop
  | .called _ _ _ => True
  | .compiled inner _ _ => level < inner ∧ inner ≤ maxEvalDepth

theorem EvalEvent.EvaluatedAbove.mono {level inner : Nat} (h : level ≤ inner) {event : EvalEvent}
    (habove : event.EvaluatedAbove inner) : event.EvaluatedAbove level := by
  cases event with
  | called => trivial
  | compiled => exact ⟨Nat.lt_of_le_of_lt h habove.1, habove.2⟩

/-! ## The levels of an evaluation -/

mutual

/-- Every text is evaluated above the level of the expression that calls for it: the rules for its parts stay
at its level, and the one for a stored text goes up by one. -/
theorem Evaluates.above : ∀ {level e state log r next}, Evaluates scope bindings level e state log r next →
    ∀ event ∈ log, event.EvaluatedAbove level
  | _, _, _, _, _, _, .literal => by simp
  | _, _, _, _, _, _, .bound _ => by simp
  | _, _, _, _, _, _, .unbound _ => by simp
  | _, _, _, _, _, _, .attr hbase => hbase.above
  | _, _, _, _, _, _, .not hoperand => hoperand.above
  | _, _, _, _, _, _, .neg hoperand => hoperand.above
  | _, _, _, _, _, _, .decided _ hleft _ => hleft.above
  | _, _, _, _, _, _, .undecided _ hleft _ hright => List.forall_mem_append.2 ⟨hleft.above, hright.above⟩
  | _, _, _, _, _, _, .leftFails _ hleft => hleft.above
  | _, _, _, _, _, _, .binary _ hleft hright => List.forall_mem_append.2 ⟨hleft.above, hright.above⟩
  | _, _, _, _, _, _, .needleFails hneedle => hneedle.above
  | _, _, _, _, _, _, .isIn hneedle hitems => List.forall_mem_append.2 ⟨hneedle.above, hitems.above⟩
  | _, _, _, _, _, _, .argumentFails hargs => hargs.above
  | _, _, _, _, _, _, .call hargs hcall => List.forall_mem_append.2 ⟨hargs.above, hcall.above⟩

theorem EvaluatesAll.above : ∀ {level es state log rs next},
    EvaluatesAll scope bindings level es state log rs next → ∀ event ∈ log, event.EvaluatedAbove level
  | _, _, _, _, _, _, .nil => by simp
  | _, _, _, _, _, _, .headFails hfirst => hfirst.above
  | _, _, _, _, _, _, .cons hfirst hrest => List.forall_mem_append.2 ⟨hfirst.above, hrest.above⟩

theorem Calls.above : ∀ {level name vs state log r next},
    Calls scope bindings level name vs state log r next → ∀ event ∈ log, event.EvaluatedAbove level
  | _, _, _, _, _, _, _, .evalArity _ => by simp
  | _, _, _, _, _, _, _, .evalTooDeep _ => by simp
  | _, _, _, _, _, _, _, .evalNotText _ _ => by simp
  | level, _, _, _, _, _, _, .evalRefused hlevel _ _ => by
    have hinner : level < level + 1 ∧ level + 1 ≤ maxEvalDepth := ⟨Nat.lt_succ_self level, hlevel⟩
    exact List.forall_mem_singleton.2 hinner
  | level, _, _, _, _, _, _, .evalText hlevel _ _ hprogram => by
    have hinner : level < level + 1 ∧ level + 1 ≤ maxEvalDepth := ⟨Nat.lt_succ_self level, hlevel⟩
    refine List.forall_mem_cons.2 ⟨hinner, ?_⟩
    intro event hevent
    exact (hprogram.above event hevent).mono (Nat.le_succ level)
  | _, _, _, _, _, _, _, .role _ _ => by simp
  | _, _, _, _, _, _, _, .function _ _ _ => List.forall_mem_singleton.2 trivial
  | _, _, _, _, _, _, _, .unknown _ _ _ => by simp

end

/-! ## Where no level is left -/

/-- One argument is evaluated, and nothing else. -/
theorem evaluatesAll_singleton {level : Nat} {arg : Expr} {state next : EvalState} {log : List EvalEvent}
    {rs : Except MatcherError (List Value)} (h : EvaluatesAll scope bindings level [arg] state log rs next) :
    ∃ value, Evaluates scope bindings level arg state log value next ∧ rs = value.map fun v => [v] := by
  cases h with
  | headFails hfirst => exact ⟨_, hfirst, rfl⟩
  | cons hfirst hrest =>
    cases hrest with
    | nil =>
      rw [List.append_nil]
      exact ⟨_, hfirst, rfl⟩

/-- A call of `eval` at the last level does what its argument does, and fails when the argument has a value. -/
theorem evaluates_eval_iff_of_full {level : Nat} (hlevel : maxEvalDepth ≤ level) (arg : Expr)
    (state next : EvalState) (log : List EvalEvent) (r : Except MatcherError Value) :
    Evaluates scope bindings level (.call "eval" [arg]) state log r next ↔
      ∃ value, Evaluates scope bindings level arg state log value next ∧
        r = (value >>= fun _ => .error (.type (.evalTooDeep maxEvalDepth))) := by
  constructor
  · intro h
    cases h with
    | argumentFails hargs =>
      obtain ⟨value, harg, hvalue⟩ := evaluatesAll_singleton hargs
      cases value with
      | error e =>
        obtain rfl := Except.error.inj hvalue
        exact ⟨_, harg, rfl⟩
      | ok v => cases hvalue
    | call hargs hcall =>
      obtain ⟨value, harg, hvalue⟩ := evaluatesAll_singleton hargs
      cases value with
      | error e => cases hvalue
      | ok v =>
        obtain rfl := Except.ok.inj hvalue
        cases hcall with
        | evalTooDeep =>
          rw [List.append_nil]
          exact ⟨_, harg, rfl⟩
        | evalArity hlength => exact absurd rfl hlength
        | evalNotText hlt => omega
        | evalRefused hlt => omega
        | evalText hlt => omega
        | role hname => exact absurd rfl hname
        | function hname => exact absurd rfl hname
        | unknown hname => exact absurd rfl hname
  · rintro ⟨value, harg, rfl⟩
    cases value with
    | error e => exact .argumentFails (.headFails harg)
    | ok v =>
      have hcall := Evaluates.call (.cons harg .nil) (.evalTooDeep (v := v) hlevel)
      rwa [List.append_nil, List.append_nil] at hcall

/-! ## Top theorem (proved from the lemmas above) -/

/-- **Evaluation ends.**  Whatever a program, a scope and its bindings are, and whatever texts the rows hold,
there is a derivation of the program's evaluation, which is a finite tree, and every one has the result and
the state of the evaluator.  All stored texts in it are evaluated at a level from 1 to 8.  At level 8 an `eval`
with one argument does what the argument does, no text compiled or evaluated for it, and where the argument
has a value the result is the error that says so. -/
theorem evaluate_nested (program : Program) (scope : Scope) (bindings : Bindings) (state : EvalState) :
    (∃ log r next, Evaluates scope bindings 0 program.expr state log r next) ∧
    (∀ log r next, Evaluates scope bindings 0 program.expr state log r next →
      (program.evaluate scope bindings).run state = (r >>= Value.asBool, next) ∧
      ∀ level text result, .compiled level text result ∈ log → 1 ≤ level ∧ level ≤ 8) ∧
    ∀ (arg : Expr) (inner : EvalState) log r next,
      Evaluates scope bindings 8 (.call "eval" [arg]) inner log r next ↔
        ∃ value, Evaluates scope bindings 8 arg inner log value next ∧
          r = (value >>= fun _ => .error (.type (.evalTooDeep 8))) := by
  refine ⟨?_, ?_, ?_⟩
  · obtain ⟨log, h⟩ := Expr.allowsRuns_evalAt scope bindings 0 program.expr state
    exact ⟨log, _, _, h⟩
  · intro log r next h
    refine ⟨h.run_evaluate, ?_⟩
    intro level text result hevent
    exact h.above _ hevent
  · intro arg inner log r next
    exact evaluates_eval_iff_of_full (Nat.le_refl maxEvalDepth) arg inner next log r

/-- Two fields of a row whose texts call `eval` on each other, one of them twice. -/
example : ((evaluateText ⟨.builtins, []⟩
    ⟨[], [], ["p_rule", "p_other"], ["eval(p.other) && eval(p.other)", "eval(p.rule)"]⟩
    "eval(p.rule)").run {}).1 = .error (.type (.evalTooDeep 8)) := by cbv

end AccessControl
