import AccessControl.Proofs.Matcher.Cache
/-!
# Evaluation, rule by rule

`Evaluates` says what an expression evaluates to, with one rule for each way an evaluation can go, and no bound
on how often a rule is used: only the rule that evaluates a stored text asks for a level below `maxEvalDepth`.
Besides the result it tells the events of the evaluation in order, which are the calls of registered functions
and the stored texts that are compiled.

    (∃ log, Evaluates scope bindings level e state log result next) ↔
      (e.evalAt scope bindings (maxEvalDepth - level)).run state = (result, next)   (`evaluates_iff`)
-/

namespace AccessControl

/-! ## Rules -/

/-- What an evaluation turns to outside of its expression. -/
inductive EvalEvent where
  /-- A registered function is called. -/
  | called (name : String) (args : List Value) (result : Except MatcherError Value)
  /-- A stored text is compiled, to be evaluated at a level of `eval`. -/
  | compiled (level : Nat) (text : String) (result : Except MatcherError Program)

/-- The truth value of the left operand that decides an operator. -/
def BinaryOp.decidedBy : BinaryOp → Option Bool
  | .and => some false
  | .or => some true
  | _ => none

/-- A value as a truth value. -/
def Value.truth (v : Value) : Except MatcherError Value := v.asBool.map .bool

/-- The state after a call of a function. -/
def MatcherFunction.record (f : MatcherFunction) (args : List Value) (state : EvalState) : EvalState :=
  if f.traced then { state with trace := state.trace ++ [args] } else state

mutual

/-- An expression at a level of `eval` evaluates to a result, from one state to the next. -/
inductive Evaluates (scope : Scope) (bindings : Bindings) :
    Nat → Expr → EvalState → List EvalEvent → Except MatcherError Value → EvalState → Prop where
  | literal {level v state} : Evaluates scope bindings level (.literal v) state [] (.ok v) state
  | bound {level name v state} (hbound : bindings.lookup name = some v) :
    Evaluates scope bindings level (.field name) state [] (.ok v) state
  | unbound {level name state} (hunbound : bindings.lookup name = none) :
    Evaluates scope bindings level (.field name) state [] (.error (.unbound name)) state
  | attr {level base name state log r next} (hbase : Evaluates scope bindings level base state log r next) :
    Evaluates scope bindings level (.attr base name) state log (r >>= (·.member name)) next
  | not {level operand state log r next}
    (hoperand : Evaluates scope bindings level operand state log r next) :
    Evaluates scope bindings level (.unary .not operand) state log
      (r >>= fun v => v.asBool.map fun b => .bool !b) next
  | neg {level operand state log r next}
    (hoperand : Evaluates scope bindings level operand state log r next) :
    Evaluates scope bindings level (.unary .neg operand) state log (r >>= Value.negate) next
  /-- The left operand decides the operator, or is no truth value. -/
  | decided {level op left right state log r next b} (hop : BinaryOp.decidedBy op = some b)
    (hleft : Evaluates scope bindings level left state log r next)
    (hdecided : (r >>= Value.truth) ≠ .ok (.bool !b)) :
    Evaluates scope bindings level (.binary op left right) state log (r >>= Value.truth) next
  | undecided {level op left right state log r middle log' r' next b}
    (hop : BinaryOp.decidedBy op = some b)
    (hleft : Evaluates scope bindings level left state log r middle)
    (hundecided : (r >>= Value.truth) = .ok (.bool !b))
    (hright : Evaluates scope bindings level right middle log' r' next) :
    Evaluates scope bindings level (.binary op left right) state (log ++ log') (r' >>= Value.truth) next
  | leftFails {level op left right state log e next} (hop : BinaryOp.decidedBy op = none)
    (hleft : Evaluates scope bindings level left state log (.error e) next) :
    Evaluates scope bindings level (.binary op left right) state log (.error e) next
  | binary {level op left right state log a middle log' r next} (hop : BinaryOp.decidedBy op = none)
    (hleft : Evaluates scope bindings level left state log (.ok a) middle)
    (hright : Evaluates scope bindings level right middle log' r next) :
    Evaluates scope bindings level (.binary op left right) state (log ++ log') (r >>= op.apply a) next
  | needleFails {level needle items state log e next}
    (hneedle : Evaluates scope bindings level needle state log (.error e) next) :
    Evaluates scope bindings level (.isIn needle items) state log (.error e) next
  | isIn {level needle items state log v middle log' rs next}
    (hneedle : Evaluates scope bindings level needle state log (.ok v) middle)
    (hitems : EvaluatesAll scope bindings level items middle log' rs next) :
    Evaluates scope bindings level (.isIn needle items) state (log ++ log')
      (rs.map fun vs => .bool (v.isAmong vs)) next
  | argumentFails {level name args state log e next}
    (hargs : EvaluatesAll scope bindings level args state log (.error e) next) :
    Evaluates scope bindings level (.call name args) state log (.error e) next
  | call {level name args state log vs middle log' r next}
    (hargs : EvaluatesAll scope bindings level args state log (.ok vs) middle)
    (hcall : Calls scope bindings level name vs middle log' r next) :
    Evaluates scope bindings level (.call name args) state (log ++ log') r next

/-- Expressions evaluate from left to right, up to the first that fails. -/
inductive EvaluatesAll (scope : Scope) (bindings : Bindings) :
    Nat → List Expr → EvalState → List EvalEvent → Except MatcherError (List Value) → EvalState → Prop where
  | nil {level state} : EvaluatesAll scope bindings level [] state [] (.ok []) state
  | headFails {level first rest state log e next}
    (hfirst : Evaluates scope bindings level first state log (.error e) next) :
    EvaluatesAll scope bindings level (first :: rest) state log (.error e) next
  | cons {level first rest state log v middle log' rs next}
    (hfirst : Evaluates scope bindings level first state log (.ok v) middle)
    (hrest : EvaluatesAll scope bindings level rest middle log' rs next) :
    EvaluatesAll scope bindings level (first :: rest) state (log ++ log') (rs.map (v :: ·)) next

/-- A name is called with the values of its arguments. -/
inductive Calls (scope : Scope) (bindings : Bindings) :
    Nat → String → List Value → EvalState → List EvalEvent → Except MatcherError Value → EvalState → Prop where
  | evalArity {level vs state} (hlength : vs.length ≠ 1) :
    Calls scope bindings level "eval" vs state [] (.error (.arity "eval" "1" vs.length)) state
  | evalTooDeep {level v state} (hlevel : maxEvalDepth ≤ level) :
    Calls scope bindings level "eval" [v] state [] (.error (.type (.evalTooDeep maxEvalDepth))) state
  | evalNotText {level v state e} (hlevel : level < maxEvalDepth)
    (htext : v.asString "eval argument" = .error e) :
    Calls scope bindings level "eval" [v] state [] (.error e) state
  | evalRefused {level v state text e programs} (hlevel : level < maxEvalDepth)
    (htext : v.asString "eval argument" = .ok text)
    (hcompile : state.programs.compile scope text = (.error e, programs)) :
    Calls scope bindings level "eval" [v] state [.compiled (level + 1) text (.error e)] (.error e)
      { state with programs }
  | evalText {level v state text program programs log r next} (hlevel : level < maxEvalDepth)
    (htext : v.asString "eval argument" = .ok text)
    (hcompile : state.programs.compile scope text = (.ok program, programs))
    (hprogram : Evaluates scope bindings (level + 1) program.expr { state with programs } log r next) :
    Calls scope bindings level "eval" [v] state (.compiled (level + 1) text (.ok program) :: log)
      (r >>= Value.truth) next
  | role {level name vs state m} (hname : name ≠ "eval") (hmanager : scope.managers.find name = some m) :
    Calls scope bindings level name vs state [] (m.answer name vs) state
  | function {level name vs state f} (hname : name ≠ "eval") (hmanager : scope.managers.find name = none)
    (hfunction : scope.functions.find name = some f) :
    Calls scope bindings level name vs state [.called name vs (f.run vs)] (f.run vs) (f.record vs state)
  | unknown {level name vs state} (hname : name ≠ "eval") (hmanager : scope.managers.find name = none)
    (hfunction : scope.functions.find name = none) :
    Calls scope bindings level name vs state [] (.error (.unknownFunction name)) state

end

/-! ## The evaluator follows the rules -/

/-- The meaning of `eval` on its argument where so many levels of it are left. -/
def evalTextAt (scope : Scope) (bindings : Bindings) : Nat → Value → EvalM Value
  | 0, _ => throw (.type (.evalTooDeep maxEvalDepth))
  | levels + 1, v => do
    let text ← EvalM.lift (v.asString "eval argument")
    let program ← EvalM.compile scope text
    let result ← program.expr.evalAt scope bindings levels
    let b ← EvalM.lift result.asBool
    pure (.bool b)

theorem Expr.evalAt_eq (scope : Scope) (bindings : Bindings) (levels : Nat) (e : Expr) :
    e.evalAt scope bindings levels =
      e.evalWith bindings.lookup (scope.call (evalTextAt scope bindings levels)) := by
  cases levels <;> rfl

namespace EvalM

variable {α β : Type}

@[simp] theorem run_lift (r : Except MatcherError α) (state : EvalState) :
    (EvalM.lift r).run state = (r, state) := by
  cases r <;> rfl

/-- What needs no state behind a computation is done with its result. -/
theorem run_bind_lift (x : EvalM α) (f : α → Except MatcherError β) (state : EvalState) :
    (do let a ← x; EvalM.lift (f a)).run state = ((x.run state).1 >>= f, (x.run state).2) := by
  rcases h : x.run state with ⟨e | a, next⟩
  · exact run_bind_error h
  · rw [run_bind_ok h]
    exact run_lift (f a) next

theorem run_bind_pure (x : EvalM α) (f : α → β) (state : EvalState) :
    (do let a ← x; pure (f a)).run state = ((x.run state).1.map f, (x.run state).2) := by
  rcases h : x.run state with ⟨e | a, next⟩
  · exact run_bind_error h
  · rw [run_bind_ok h]
    rfl

/-- A result that is made into another needs no state. -/
theorem lift_map (r : Except MatcherError α) (f : α → β) :
    (do let a ← EvalM.lift r; pure (f a)) = EvalM.lift (r.map f) := by
  cases r <;> rfl

theorem run_compile (scope : Scope) (text : String) (state : EvalState) :
    (EvalM.compile scope text).run state = ((state.programs.compile scope text).1,
      { state with programs := (state.programs.compile scope text).2 }) :=
  run_lift _ _

/-- The truth value of a second computation, unless the truth value of the first is `b`. -/
def shortCircuit (b : Bool) (x y : EvalM Value) : EvalM Value := do
  let v ← x
  let c ← EvalM.lift v.asBool
  if c = b then pure (.bool b) else do
    let v ← y
    EvalM.lift v.truth

section

variable {x y : EvalM Value} {state : EvalState} {b : Bool}

/-- A first truth value `b`, or none, is the result. -/
theorem run_decided (h : ((x.run state).1 >>= Value.truth) ≠ .ok (.bool !b)) :
    (shortCircuit b x y).run state = ((x.run state).1 >>= Value.truth, (x.run state).2) := by
  unfold shortCircuit
  rcases hx : x.run state with ⟨e | v, middle⟩
  · exact run_bind_error hx
  · rw [run_bind_ok hx]
    rw [hx] at h
    change v.truth ≠ _ at h
    show _ = (v.truth, middle)
    unfold Value.truth at h ⊢
    cases hv : v.asBool with
    | error e => rfl
    | ok c =>
      have hc : c = b := by
        by_contra hne
        rw [hv] at h
        exact h (by rw [Bool.eq_not_of_ne hne]; rfl)
      subst hc
      rw [run_bind_ok (run_lift _ _), if_pos rfl]
      rfl

/-- A first truth value that is not `b` leaves the second computation to give the result. -/
theorem run_undecided (h : ((x.run state).1 >>= Value.truth) = .ok (.bool !b)) :
    (shortCircuit b x y).run state =
      ((y.run (x.run state).2).1 >>= Value.truth, (y.run (x.run state).2).2) := by
  unfold shortCircuit
  rcases hx : x.run state with ⟨e | v, middle⟩
  · rw [hx] at h
    simp [bind, Except.bind] at h
  · rw [run_bind_ok hx]
    rw [hx] at h
    change v.truth = _ at h
    unfold Value.truth at h
    cases hv : v.asBool with
    | error e => simp [hv, Except.map] at h
    | ok c =>
      have hc : c = !b := by simpa [hv, Except.map] using h
      rw [run_bind_ok (run_lift _ _), if_neg (by simp [hc])]
      exact run_bind_lift y Value.truth middle

end

/-- Rules allow every run of a computation. -/
def AllowsRuns (rules : EvalState → List EvalEvent → Except MatcherError α → EvalState → Prop)
    (x : EvalM α) : Prop :=
  ∀ state, ∃ log, rules state log (x.run state).1 (x.run state).2

section

variable {x : EvalM α} {rules : EvalState → List EvalEvent → Except MatcherError α → EvalState → Prop}
  {rules' : EvalState → List EvalEvent → Except MatcherError β → EvalState → Prop}

theorem AllowsRuns.bind_lift {f : α → Except MatcherError β} (hx : AllowsRuns rules x)
    (hrule : ∀ {state log r next}, rules state log r next → rules' state log (r >>= f) next) :
    AllowsRuns rules' (do let a ← x; EvalM.lift (f a)) := by
  intro state
  obtain ⟨log, hlog⟩ := hx state
  rw [run_bind_lift]
  exact ⟨log, hrule hlog⟩

theorem AllowsRuns.bind {f : α → EvalM β} (hx : AllowsRuns rules x)
    (herror : ∀ {state log e next}, rules state log (.error e) next → rules' state log (.error e) next)
    (hok : ∀ {state log a middle}, rules state log (.ok a) middle →
      ∃ log', rules' state (log ++ log') ((f a).run middle).1 ((f a).run middle).2) :
    AllowsRuns rules' (x >>= f) := by
  intro state
  obtain ⟨log, hlog⟩ := hx state
  rcases hrun : x.run state with ⟨e | a, next⟩
  · rw [hrun] at hlog
    rw [run_bind_error hrun]
    exact ⟨log, herror hlog⟩
  · rw [hrun] at hlog
    rw [run_bind_ok hrun]
    obtain ⟨log', hlog'⟩ := hok hlog
    exact ⟨log ++ log', hlog'⟩

end

end EvalM

open EvalM

section

variable {lookup : String → Option Value} {call : String → List Value → EvalM Value} {op : BinaryOp}

theorem Expr.evalWith_of_decidedBy {b : Bool} (hop : op.decidedBy = some b) (left right : Expr) :
    (Expr.binary op left right).evalWith lookup call =
      shortCircuit b (left.evalWith lookup call) (right.evalWith lookup call) := by
  cases op <;> simp only [BinaryOp.decidedBy, Option.some.injEq, reduceCtorEq] at hop <;> subst hop
  all_goals
    simp only [Expr.evalWith, shortCircuit, lift_map]
    refine bind_congr fun v => bind_congr fun c => ?_
    cases c <;> rfl

theorem Expr.evalWith_of_not_decidedBy (hop : op.decidedBy = none) (left right : Expr) :
    (Expr.binary op left right).evalWith lookup call = (do
      let a ← left.evalWith lookup call
      let b ← right.evalWith lookup call
      EvalM.lift (op.apply a b)) := by
  cases op <;> first | rfl | simp [BinaryOp.decidedBy] at hop

end

variable {scope : Scope} {bindings : Bindings} {level : Nat}

/-! ### What the evaluator does is allowed -/

section

variable {call : String → List Value → EvalM Value}

mutual

theorem Expr.allowsRuns_evalWith
    (hcall : ∀ name vs, AllowsRuns (Calls scope bindings level name vs) (call name vs)) :
    ∀ e : Expr, AllowsRuns (Evaluates scope bindings level e) (e.evalWith bindings.lookup call)
  | .literal v => fun state => ⟨[], .literal⟩
  | .field name => by
    intro state
    rw [Expr.evalWith]
    split
    · next v hv => exact ⟨[], .bound hv⟩
    · next hnone => exact ⟨[], .unbound hnone⟩
  | .attr base name => (Expr.allowsRuns_evalWith hcall base).bind_lift .attr
  | .unary .not operand => by
    simp only [Expr.evalWith, lift_map]
    exact (Expr.allowsRuns_evalWith hcall operand).bind_lift .not
  | .unary .neg operand => (Expr.allowsRuns_evalWith hcall operand).bind_lift .neg
  | .binary op left right => by
    have hleft := Expr.allowsRuns_evalWith hcall left
    have hright := Expr.allowsRuns_evalWith hcall right
    cases hop : op.decidedBy with
    | none =>
      rw [Expr.evalWith_of_not_decidedBy hop]
      refine hleft.bind (.leftFails hop) fun {state log a middle} hfirst => ?_
      obtain ⟨log', hsecond⟩ := hright middle
      rw [run_bind_lift]
      exact ⟨log', .binary hop hfirst hsecond⟩
    | some b =>
      intro state
      obtain ⟨log, hfirst⟩ := hleft state
      rw [Expr.evalWith_of_decidedBy hop]
      by_cases hvalue : ((left.evalWith bindings.lookup call).run state).1 >>= Value.truth = .ok (.bool !b)
      · obtain ⟨log', hsecond⟩ := hright ((left.evalWith bindings.lookup call).run state).2
        rw [run_undecided hvalue]
        exact ⟨log ++ log', .undecided hop hfirst hvalue hsecond⟩
      · rw [run_decided hvalue]
        exact ⟨log, .decided hop hfirst hvalue⟩
  | .isIn needle items => by
    rw [Expr.evalWith]
    refine (Expr.allowsRuns_evalWith hcall needle).bind .needleFails fun {state log v middle} hneedle => ?_
    obtain ⟨log', hitems⟩ := Expr.allowsRuns_evalAll hcall items middle
    rw [run_bind_pure]
    exact ⟨log', .isIn hneedle hitems⟩
  | .call name args => by
    rw [Expr.evalWith]
    refine (Expr.allowsRuns_evalAll hcall args).bind .argumentFails fun {state log vs middle} hargs => ?_
    obtain ⟨log', hresult⟩ := hcall name vs middle
    exact ⟨log', .call hargs hresult⟩

theorem Expr.allowsRuns_evalAll
    (hcall : ∀ name vs, AllowsRuns (Calls scope bindings level name vs) (call name vs)) :
    ∀ es : List Expr, AllowsRuns (EvaluatesAll scope bindings level es) (Expr.evalAll bindings.lookup call es)
  | [] => fun state => ⟨[], .nil⟩
  | first :: rest => by
    rw [Expr.evalAll]
    refine (Expr.allowsRuns_evalWith hcall first).bind .headFails fun {state log v middle} hfirst => ?_
    obtain ⟨log', hrest⟩ := Expr.allowsRuns_evalAll hcall rest middle
    rw [run_bind_pure]
    exact ⟨log', .cons hfirst hrest⟩

end

end

/-- What a call of a name other than `eval` does. -/
theorem Scope.run_call {evalText : Value → EvalM Value} {name : String} (hname : name ≠ "eval")
    (vs : List Value) (state : EvalState) :
    (scope.call evalText name vs).run state =
      match scope.managers.find name with
      | some m => (m.answer name vs, state)
      | none =>
        match scope.functions.find name with
        | some f => (f.run vs, f.record vs state)
        | none => (.error (.unknownFunction name), state) := by
  unfold Scope.call
  rw [if_neg hname]
  cases scope.managers.find name with
  | some m => exact run_lift _ _
  | none =>
    cases scope.functions.find name with
    | none => rfl
    | some f =>
      dsimp only
      unfold MatcherFunction.record
      split
      · exact run_lift _ _
      · exact run_lift _ _

/-- A call follows the rules when the meaning of `eval` does. -/
theorem Scope.allowsRuns_call {evalText : Value → EvalM Value}
    (heval : ∀ v, AllowsRuns (Calls scope bindings level "eval" [v]) (evalText v)) (name : String)
    (vs : List Value) : AllowsRuns (Calls scope bindings level name vs) (scope.call evalText name vs) := by
  intro state
  by_cases hname : name = "eval"
  · subst hname
    unfold Scope.call
    rw [if_pos rfl]
    split
    · exact heval _ state
    · next hvs =>
      have hlength : vs.length ≠ 1 := by
        intro h
        obtain ⟨v, rfl⟩ := List.length_eq_one_iff.1 h
        exact hvs v rfl
      exact ⟨[], .evalArity hlength⟩
  · rw [Scope.run_call hname]
    cases hm : scope.managers.find name with
    | some m => exact ⟨[], .role hname hm⟩
    | none =>
      cases hf : scope.functions.find name with
      | some f => exact ⟨_, .function hname hm hf⟩
      | none => exact ⟨[], .unknown hname hm hf⟩

/-- Whatever the evaluator does is allowed. -/
theorem Expr.allowsRuns_evalAt (scope : Scope) (bindings : Bindings) (level : Nat) (e : Expr) :
    AllowsRuns (Evaluates scope bindings level e) (e.evalAt scope bindings (maxEvalDepth - level)) := by
  -- on the levels that are left: a stored text is evaluated with one less, whatever its size
  generalize hlevels : maxEvalDepth - level = levels
  induction levels generalizing level e with
  | zero =>
    rw [Expr.evalAt_eq]
    exact Expr.allowsRuns_evalWith (Scope.allowsRuns_call fun v state => ⟨[], .evalTooDeep (by omega)⟩) e
  | succ levels ih =>
    rw [Expr.evalAt_eq]
    refine Expr.allowsRuns_evalWith (Scope.allowsRuns_call fun v state => ?_) e
    have hlt : level < maxEvalDepth := by omega
    rw [evalTextAt]
    cases htext : v.asString "eval argument" with
    | error e => exact ⟨[], .evalNotText hlt htext⟩
    | ok text =>
      rw [run_bind_ok (run_lift _ _)]
      rcases hcompile : state.programs.compile scope text with ⟨e | program, programs⟩
      · rw [run_bind_error (by rw [run_compile, hcompile])]
        exact ⟨_, .evalRefused hlt htext hcompile⟩
      · rw [run_bind_ok (by rw [run_compile, hcompile])]
        simp only [lift_map]
        obtain ⟨log, hprogram⟩ := ih (level + 1) program.expr (by omega) { state with programs }
        rw [run_bind_lift]
        exact ⟨_, .evalText hlt htext hcompile hprogram⟩

/-! ### What is allowed is what the evaluator does -/

/-- What calls mean at a level of `eval`. -/
def Scope.callAt (scope : Scope) (bindings : Bindings) (level : Nat) :
    String → List Value → EvalM Value :=
  scope.call (evalTextAt scope bindings (maxEvalDepth - level))

theorem Scope.callAt_eval (scope : Scope) (bindings : Bindings) {level : Nat} (hlevel : level < maxEvalDepth)
    (v : Value) : scope.callAt bindings level "eval" [v] = (do
      let text ← EvalM.lift (v.asString "eval argument")
      let program ← EvalM.compile scope text
      let result ← program.expr.evalWith bindings.lookup (scope.callAt bindings (level + 1))
      EvalM.lift result.truth) := by
  obtain ⟨levels, hlevels⟩ : ∃ levels, maxEvalDepth - level = levels + 1 := ⟨maxEvalDepth - level - 1, by omega⟩
  have hnext : maxEvalDepth - (level + 1) = levels := by omega
  unfold Scope.callAt
  rw [hlevels, hnext]
  show evalTextAt scope bindings (levels + 1) v = _
  simp only [evalTextAt, lift_map, Expr.evalAt_eq, Value.truth]

mutual

theorem Evaluates.run_eq : ∀ {level e state log r next}, Evaluates scope bindings level e state log r next →
    (e.evalWith bindings.lookup (scope.callAt bindings level)).run state = (r, next)
  | _, _, _, _, _, _, .literal => rfl
  | _, _, _, _, _, _, .bound hbound => by
    rw [Expr.evalWith, hbound]
    rfl
  | _, _, _, _, _, _, .unbound hunbound => by
    rw [Expr.evalWith, hunbound]
    rfl
  | _, _, _, _, _, _, .attr hbase => by rw [Expr.evalWith, run_bind_lift, hbase.run_eq]
  | _, _, _, _, _, _, .not hoperand => by
    simp only [Expr.evalWith, lift_map]
    rw [run_bind_lift, hoperand.run_eq]
  | _, _, _, _, _, _, .neg hoperand => by rw [Expr.evalWith, run_bind_lift, hoperand.run_eq]
  | _, _, _, _, _, _, .decided hop hleft hdecided => by
    have hrun := hleft.run_eq
    rw [Expr.evalWith_of_decidedBy hop, run_decided (by rwa [hrun]), hrun]
  | _, _, _, _, _, _, .undecided hop hleft hundecided hright => by
    have hrun := hleft.run_eq
    rw [Expr.evalWith_of_decidedBy hop, run_undecided (by rwa [hrun]), hrun, hright.run_eq]
  | _, _, _, _, _, _, .leftFails hop hleft => by
    rw [Expr.evalWith_of_not_decidedBy hop, run_bind_error hleft.run_eq]
  | _, _, _, _, _, _, .binary hop hleft hright => by
    rw [Expr.evalWith_of_not_decidedBy hop, run_bind_ok hleft.run_eq, run_bind_lift, hright.run_eq]
  | _, _, _, _, _, _, .needleFails hneedle => by rw [Expr.evalWith, run_bind_error hneedle.run_eq]
  | _, _, _, _, _, _, .isIn hneedle hitems => by
    rw [Expr.evalWith, run_bind_ok hneedle.run_eq, run_bind_pure, hitems.run_eq]
  | _, _, _, _, _, _, .argumentFails hargs => by rw [Expr.evalWith, run_bind_error hargs.run_eq]
  | _, _, _, _, _, _, .call hargs hcall => by rw [Expr.evalWith, run_bind_ok hargs.run_eq, hcall.run_eq]

theorem EvaluatesAll.run_eq : ∀ {level es state log rs next},
    EvaluatesAll scope bindings level es state log rs next →
    (Expr.evalAll bindings.lookup (scope.callAt bindings level) es).run state = (rs, next)
  | _, _, _, _, _, _, .nil => rfl
  | _, _, _, _, _, _, .headFails hfirst => by rw [Expr.evalAll, run_bind_error hfirst.run_eq]
  | _, _, _, _, _, _, .cons hfirst hrest => by
    rw [Expr.evalAll, run_bind_ok hfirst.run_eq, run_bind_pure, hrest.run_eq]

theorem Calls.run_eq : ∀ {level name vs state log r next},
    Calls scope bindings level name vs state log r next →
    (scope.callAt bindings level name vs).run state = (r, next)
  | _, _, vs, _, _, _, _, .evalArity hlength => by
    unfold Scope.callAt Scope.call
    rw [if_pos rfl]
    split
    · exact absurd rfl hlength
    · rfl
  | _, _, _, _, _, _, _, .evalTooDeep hlevel => by
    unfold Scope.callAt
    rw [Nat.sub_eq_zero_of_le hlevel]
    rfl
  | _, _, _, _, _, _, _, .evalNotText hlevel htext => by
    rw [Scope.callAt_eval scope bindings hlevel, htext]
    rfl
  | _, _, _, _, _, _, _, .evalRefused hlevel htext hcompile => by
    rw [Scope.callAt_eval scope bindings hlevel, htext, run_bind_ok (run_lift _ _),
      run_bind_error (by rw [run_compile, hcompile])]
  | _, _, _, _, _, _, _, .evalText hlevel htext hcompile hprogram => by
    rw [Scope.callAt_eval scope bindings hlevel, htext, run_bind_ok (run_lift _ _),
      run_bind_ok (by rw [run_compile, hcompile]), run_bind_lift, hprogram.run_eq]
  | _, _, _, _, _, _, _, .role hname hmanager => by rw [Scope.callAt, Scope.run_call hname, hmanager]
  | _, _, _, _, _, _, _, .function hname hmanager hfunction => by
    rw [Scope.callAt, Scope.run_call hname, hmanager, hfunction]
  | _, _, _, _, _, _, _, .unknown hname hmanager hfunction => by
    rw [Scope.callAt, Scope.run_call hname, hmanager, hfunction]

end

/-- **The evaluator follows the rules.**  What an expression evaluates to at a level of `eval`, and the state
it leaves, are what the rules derive, and they derive nothing else. -/
theorem Expr.evaluates_iff (scope : Scope) (bindings : Bindings) (level : Nat) (e : Expr)
    (state next : EvalState) (r : Except MatcherError Value) :
    (∃ log, Evaluates scope bindings level e state log r next) ↔
      (e.evalAt scope bindings (maxEvalDepth - level)).run state = (r, next) := by
  constructor
  · rintro ⟨log, h⟩
    rw [Expr.evalAt_eq]
    exact h.run_eq
  · intro h
    obtain ⟨log, hlog⟩ := Expr.allowsRuns_evalAt scope bindings level e state
    rw [h] at hlog
    exact ⟨log, hlog⟩

/-- A program is evaluated at level 0, and its value is a truth value. -/
theorem Evaluates.run_evaluate {program : Program} {state next : EvalState} {log : List EvalEvent}
    {r : Except MatcherError Value} (h : Evaluates scope bindings 0 program.expr state log r next) :
    (program.evaluate scope bindings).run state = (r >>= Value.asBool, next) := by
  have hrun := (Expr.evaluates_iff scope bindings 0 program.expr state next r).1 ⟨log, h⟩
  show (do let v ← program.expr.evalAt scope bindings (maxEvalDepth - 0)
           EvalM.lift v.asBool).run state = _
  rw [EvalM.run_bind_lift, hrun]

end AccessControl
