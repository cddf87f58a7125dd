import AccessControl.Matcher.Evaluation
import AccessControl.Proofs.Expr.References
import AccessControl.Proofs.Table
/-!
# Evaluation and the compiled programs

The programs at hand are right when each is what compiling its text from scratch gives.  A text is
looked up with its references joined, and joining leaves nothing to join, so the program that is put
there is what the joined text compiles to as well.  Compiling keeps the programs right and gives what
compiling from scratch gives; so evaluation, `eval` of stored texts included, gives one result from all
right states.

    (ProgramCache.compile [] scope text).1 = Program.ofSource scope (joinReferences text)
                                                                       (`compile_empty`)
    programs.FromScratch scope → (programs.compile scope text).1 = Program.ofSource scope (joinReferences text)
                                                                       (`FromScratch.compile`)
    the result of a program does not depend on the state               (`settled_evaluate`)
-/

namespace AccessControl

namespace ProgramCache

/-- Every program at hand is what compiling its text from scratch gives. -/
def FromScratch (programs : ProgramCache) (scope : Scope) : Prop :=
  ∀ text program, programs.find text = some program →
    (ProgramCache.compile [] scope text).1 = .ok program

theorem fromScratch_empty (scope : Scope) : ProgramCache.FromScratch [] scope := by
  intro text program h
  simp at h

theorem compile_empty (scope : Scope) (text : String) :
    (ProgramCache.compile [] scope text).1 = Program.ofSource scope (joinReferences text) := by
  unfold ProgramCache.compile
  simp only [Table.find_nil]
  split
  · next hsource => exact hsource.symm
  · next hsource => exact hsource.symm

/-- The text a program is kept under compiles as the text it was compiled from. -/
theorem compile_empty_join (scope : Scope) (text : String) :
    (ProgramCache.compile [] scope (joinReferences text)).1 =
      Program.ofSource scope (joinReferences text) := by
  rw [compile_empty, joinReferences_idem]

/-- What compiling gives depends on what may be called only. -/
theorem ofSource_congr {scope other : Scope}
    (h : ∀ name, other.isCallable name = scope.isCallable name) (text : String) :
    Program.ofSource other text = Program.ofSource scope text := by
  have hcall : ∀ e, other.unknownCall? e = scope.unknownCall? e := by
    intro e
    unfold Scope.unknownCall?
    simp only [h]
  unfold Program.ofSource
  simp only [hcall]

theorem FromScratch.congr {programs : ProgramCache} {scope other : Scope} (h : programs.FromScratch scope)
    (hcall : ∀ name, other.isCallable name = scope.isCallable name) : programs.FromScratch other := by
  intro text program hfind
  rw [compile_empty, ofSource_congr hcall, ← compile_empty]
  exact h text program hfind

/-- Compiling with right programs gives what compiling from scratch gives, and keeps them right. -/
theorem FromScratch.compile {programs : ProgramCache} {scope : Scope} (h : programs.FromScratch scope)
    (text : String) :
    (programs.compile scope text).1 = Program.ofSource scope (joinReferences text) ∧
      (programs.compile scope text).2.FromScratch scope := by
  unfold ProgramCache.compile
  dsimp only
  split
  · next program hfind =>
    have hprogram := h _ _ hfind
    rw [compile_empty_join] at hprogram
    exact ⟨hprogram.symm, h⟩
  · split
    · next program hok =>
      refine ⟨hok.symm, fun key p hp => ?_⟩
      rw [Table.find_put] at hp
      split at hp
      · next heq =>
        rw [← heq, ← Option.some.inj hp, compile_empty_join]
        exact hok
      · exact h key p hp
    · next err herr => exact ⟨herr.symm, h⟩

end ProgramCache

namespace EvalM

variable {α β : Type} {scope : Scope}

/-- A computation gives a result whatever right programs it starts with, and keeps them right. -/
def Gives (scope : Scope) (x : EvalM α) (r : Except MatcherError α) : Prop :=
  ∀ state : EvalState, state.programs.FromScratch scope →
    (x.run state).1 = r ∧ (x.run state).2.programs.FromScratch scope

/-- A computation has one result. -/
def Settled (scope : Scope) (x : EvalM α) : Prop := ∃ r, Gives scope x r

theorem gives_pure (a : α) : Gives scope (pure a) (.ok a) := fun _ h => ⟨rfl, h⟩

theorem gives_throw (e : MatcherError) : Gives scope (throw e : EvalM α) (.error e) :=
  fun _ h => ⟨rfl, h⟩

theorem gives_lift (r : Except MatcherError α) : Gives scope (EvalM.lift r) r := by
  cases r with
  | ok a => exact gives_pure a
  | error e => exact gives_throw e

theorem run_bind_ok {x : EvalM α} {f : α → EvalM β} {a : α} {state next : EvalState}
    (h : x.run state = (.ok a, next)) : (x >>= f).run state = (f a).run next := by
  simp only [bind, ExceptT.bind, ExceptT.mk, ExceptT.run, StateT.bind] at h ⊢
  rw [h]
  rfl

theorem run_bind_error {x : EvalM α} {f : α → EvalM β} {e : MatcherError} {state next : EvalState}
    (h : x.run state = (.error e, next)) : (x >>= f).run state = (.error e, next) := by
  simp only [bind, ExceptT.bind, ExceptT.mk, ExceptT.run, StateT.bind] at h ⊢
  rw [h]
  rfl

theorem Gives.bind {x : EvalM α} {f : α → EvalM β} {a : α} {r : Except MatcherError β}
    (hx : Gives scope x (.ok a)) (hf : Gives scope (f a) r) : Gives scope (x >>= f) r := by
  intro state hstate
  obtain ⟨hresult, hright⟩ := hx state hstate
  rw [run_bind_ok (Prod.ext hresult rfl)]
  exact hf _ hright

theorem Gives.bind_error {x : EvalM α} {f : α → EvalM β} {e : MatcherError}
    (hx : Gives scope x (.error e)) : Gives scope (x >>= f) (.error e) := by
  intro state hstate
  obtain ⟨hresult, hright⟩ := hx state hstate
  rw [run_bind_error (Prod.ext hresult rfl)]
  exact ⟨rfl, hright⟩

theorem settled_pure (a : α) : Settled scope (pure a) := ⟨_, gives_pure a⟩

theorem settled_throw (e : MatcherError) : Settled scope (throw e : EvalM α) := ⟨_, gives_throw e⟩

theorem settled_lift (r : Except MatcherError α) : Settled scope (EvalM.lift r) := ⟨r, gives_lift r⟩

theorem Settled.bind {x : EvalM α} {f : α → EvalM β} (hx : Settled scope x)
    (hf : ∀ a, Settled scope (f a)) : Settled scope (x >>= f) := by
  obtain ⟨r | a, hx⟩ := hx
  · exact ⟨_, hx.bind_error⟩
  · obtain ⟨r, hr⟩ := hf a
    exact ⟨r, hx.bind hr⟩

/-- What a settled computation gives is what it gives without any programs. -/
theorem Settled.run_eq {x : EvalM α} (hx : Settled scope x) {state : EvalState}
    (h : state.programs.FromScratch scope) : (x.run state).1 = (x.run {}).1 := by
  obtain ⟨r, hr⟩ := hx
  rw [(hr state h).1, (hr {} (ProgramCache.fromScratch_empty scope)).1]

/-- Recording a call does not touch the programs. -/
theorem gives_record (args : List Value) :
    Gives scope (modify fun s : EvalState => { s with trace := s.trace ++ [args] }) (.ok ()) :=
  fun _ h => ⟨rfl, h⟩

theorem gives_compile (text : String) :
    Gives scope (EvalM.compile scope text) (Program.ofSource scope (joinReferences text)) := by
  intro state hstate
  obtain ⟨hresult, hright⟩ := hstate.compile text
  have hrun : (EvalM.compile scope text).run state =
      (EvalM.lift (state.programs.compile scope text).1).run
        { state with programs := (state.programs.compile scope text).2 } := rfl
  rw [hrun, ← hresult]
  exact gives_lift _ _ hright

end EvalM

/-! ## Expressions -/

section

open EvalM

variable {scope : Scope} {lookup : String → Option Value} {call : String → List Value → EvalM Value}

mutual

theorem Expr.settled_evalWith (hcall : ∀ name args, Settled scope (call name args)) :
    ∀ e : Expr, Settled scope (e.evalWith lookup call)
  | .literal v => settled_pure v
  | .field name => by
    rw [Expr.evalWith]
    split
    · exact settled_pure _
    · exact settled_throw _
  | .attr base name => (Expr.settled_evalWith hcall base).bind fun _ => settled_lift _
  | .unary .not operand =>
    (Expr.settled_evalWith hcall operand).bind fun _ => (settled_lift _).bind fun _ => settled_pure _
  | .unary .neg operand => (Expr.settled_evalWith hcall operand).bind fun _ => settled_lift _
  | .binary op left right => by
    have hleft := Expr.settled_evalWith hcall left
    have hright := Expr.settled_evalWith hcall right
    have hrest : Settled scope (do
        let b ← right.evalWith lookup call
        let b ← EvalM.lift b.asBool
        pure (Value.bool b)) :=
      hright.bind fun _ => (settled_lift _).bind fun _ => settled_pure _
    cases op with
    | and =>
      refine hleft.bind fun _ => (settled_lift _).bind fun a => ?_
      cases a
      · exact settled_pure _
      · exact hrest
    | or =>
      refine hleft.bind fun _ => (settled_lift _).bind fun a => ?_
      cases a
      · exact hrest
      · exact settled_pure _
    | _ => exact hleft.bind fun _ => hright.bind fun _ => settled_lift _
  | .isIn needle items =>
    (Expr.settled_evalWith hcall needle).bind fun _ =>
      (Expr.settled_evalAll hcall items).bind fun _ => settled_pure _
  | .call name args => (Expr.settled_evalAll hcall args).bind fun vs => hcall name vs

theorem Expr.settled_evalAll (hcall : ∀ name args, Settled scope (call name args)) :
    ∀ es : List Expr, Settled scope (Expr.evalAll lookup call es)
  | [] => settled_pure _
  | e :: rest =>
    (Expr.settled_evalWith hcall e).bind fun _ =>
      (Expr.settled_evalAll hcall rest).bind fun _ => settled_pure _

end

theorem Scope.settled_call {evalText : Value → EvalM Value} (h : ∀ v, Settled scope (evalText v))
    (name : String) (args : List Value) : Settled scope (scope.call evalText name args) := by
  unfold Scope.call
  split
  · split
    · exact h _
    · exact settled_throw _
  · split
    · exact settled_lift _
    · split
      · dsimp only
        split
        · exact Settled.bind ⟨_, gives_record args⟩ fun _ => settled_lift _
        · exact settled_lift _
      · exact settled_throw _

theorem Expr.settled_evalAt (bindings : Bindings) (levels : Nat) (e : Expr) :
    Settled scope (e.evalAt scope bindings levels) := by
  induction levels generalizing e with
  | zero => exact Expr.settled_evalWith (Scope.settled_call fun _ => settled_throw _) e
  | succ levels ih =>
    refine Expr.settled_evalWith (Scope.settled_call fun v => ?_) e
    exact (settled_lift _).bind fun text => Settled.bind ⟨_, gives_compile text⟩ fun program =>
      (ih program.expr).bind fun _ => (settled_lift _).bind fun _ => settled_pure _

/-- A program has one truth value, or one error, whatever was compiled before. -/
theorem Program.settled_evaluate (program : Program) (bindings : Bindings) :
    Settled scope (program.evaluate scope bindings) :=
  (Expr.settled_evalAt bindings maxEvalDepth program.expr).bind fun _ => settled_lift _

end

end AccessControl
