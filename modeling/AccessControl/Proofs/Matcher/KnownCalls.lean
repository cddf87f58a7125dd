import AccessControl.Proofs.Expr.Calls
import AccessControl.Proofs.Expr.Parsing
import AccessControl.Proofs.Matcher.Derivations
import Mathlib
/-!
# Known calls

Compiling looks up every call of a text before anything is evaluated, and evaluation looks up a call when it
comes to it.  The first goes through the tree, the second follows the operands that are needed and the stored
texts; what the first has passed, the second finds.  So none of the errors of compiling comes out of an
evaluation by itself: such an error was given by a registered function, or by compiling the text of an `eval`,
and is the last thing that happened.

    scope.unknownCall? e = some name ↔ ∃ path, e.FirstAt scope.Unknown path name     (`unknownCall?_eq_some`)
    e.Known scope → an error of compiling was given by the last event                (`Evaluates.givenLast`)
-/

namespace AccessControl

/-! ## Names that may be called -/

/-- A name that is neither `eval`, a role definition nor a registered function. -/
def Scope.Unknown (scope : Scope) (name : String) : Prop :=
  name ≠ "eval" ∧ name ∉ scope.managers.keys ∧ name ∉ scope.functions.keys

/-- No call of the expression is unknown. -/
def Expr.Known (scope : Scope) (e : Expr) : Prop := ∀ name ∈ e.calls, ¬ scope.Unknown name

def Expr.AllKnown (scope : Scope) (es : List Expr) : Prop := ∀ name ∈ Expr.callsOf es, ¬ scope.Unknown name

section

variable {scope : Scope} {name : String}

theorem Scope.not_isCallable_iff : (!scope.isCallable name) = true ↔ scope.Unknown name := by
  unfold Scope.isCallable Scope.Unknown
  rw [← Table.contains_iff, ← Table.contains_iff]
  simp [and_assoc]

theorem Scope.unknown_of_find (hname : name ≠ "eval") (hmanager : scope.managers.find name = none)
    (hfunction : scope.functions.find name = none) : scope.Unknown name :=
  ⟨hname, (Table.find_eq_none_iff _ _).1 hmanager, (Table.find_eq_none_iff _ _).1 hfunction⟩

/-- The call that compiling finds is the first unknown call of the tree. -/
theorem unknownCall?_eq_some {e : Expr} :
    scope.unknownCall? e = some name ↔ ∃ path, e.FirstAt scope.Unknown path name := by
  have hunknown : (fun name => (!scope.isCallable name) = true) = scope.Unknown :=
    funext fun _ => propext Scope.not_isCallable_iff
  rw [Scope.unknownCall?, Expr.find?_calls, hunknown]

theorem unknownCall?_eq_none {e : Expr} : scope.unknownCall? e = none ↔ e.Known scope := by
  simp only [Scope.unknownCall?, List.find?_eq_none, Scope.not_isCallable_iff]
  rfl

namespace Expr

theorem known_binary {op : BinaryOp} {left right : Expr} :
    (Expr.binary op left right).Known scope ↔ left.Known scope ∧ right.Known scope :=
  List.forall_mem_append

theorem known_isIn {needle : Expr} {items : List Expr} :
    (Expr.isIn needle items).Known scope ↔ needle.Known scope ∧ AllKnown scope items :=
  List.forall_mem_append

theorem known_call {args : List Expr} :
    (Expr.call name args).Known scope ↔ ¬ scope.Unknown name ∧ AllKnown scope args :=
  List.forall_mem_cons

theorem allKnown_cons {first : Expr} {rest : List Expr} :
    AllKnown scope (first :: rest) ↔ first.Known scope ∧ AllKnown scope rest :=
  List.forall_mem_append

end Expr

end

/-! ## Texts that are read -/

/-- A text is read as an expression: it has tokens, none of them blocked, that make up the expression. -/
def Expr.IsRead (e : Expr) (source : String) : Prop :=
  ∃ ts, tokens source = .ok ts ∧ checkPortable ts source = .ok () ∧
    Expr.ofTokens ts source.utf8ByteSize = .ok e

theorem Expr.isRead_iff {e : Expr} {source : String} : e.IsRead source ↔ Expr.ofText source = .ok e := by
  unfold Expr.IsRead Expr.ofText
  constructor
  · rintro ⟨ts, htokens, hportable, hexpr⟩
    rw [htokens]
    dsimp only
    rw [hportable]
    exact hexpr
  · intro h
    split at h
    · cases h
    · next ts htokens =>
      split at h
      · cases h
      · next hportable => exact ⟨ts, htokens, hportable, h⟩

/-- What has no tokens is malformed. -/
theorem tokensFrom_error {offset : Nat} {cs : List Char} {e : MatcherError}
    (h : tokensFrom offset cs = .error e) : ∃ place fault, e = .malformed place fault := by
  fun_induction tokensFrom offset cs with
  | case1 => cases h
  | case2 offset c rest hgap ih => exact ih h
  | case3 offset c rest hgap fault hread =>
    obtain rfl := Except.error.inj h
    exact ⟨offset, fault, rfl⟩
  | case4 offset c rest hgap token lexeme after hread ih =>
    cases hrest : tokensFrom (offset + Text.byteLength lexeme) after with
    | error e' =>
      rw [hrest] at h
      obtain rfl := Except.error.inj h
      exact ih hrest
    | ok ts =>
      rw [hrest] at h
      cases h

/-- Tokens that make up no expression are malformed. -/
theorem Expr.ofTokens_error {ts : List PlacedToken} {textEnd : Nat} {e : MatcherError}
    (h : Expr.ofTokens ts textEnd = .error e) : ∃ place fault, e = .malformed place fault := by
  have hreads := (Expr.sound textEnd (Expr.budgetFor ts.length)).phrase .disjunction ts
  unfold Expr.ofTokens at h
  generalize Expr.parse textEnd (Expr.budgetFor ts.length) .disjunction ts = r at h hreads
  cases hreads with
  | fault place fault =>
    obtain rfl := Except.error.inj h
    exact ⟨place, fault, rfl⟩
  | tree d rest hrest =>
    cases rest with
    | nil => cases h
    | cons t rest =>
      obtain rfl := Except.error.inj h
      exact ⟨t.offset, _, rfl⟩

/-- Reading a text finds fault with the text, never with a function. -/
theorem Expr.ofText_ne_unknownFunction (source name : String) :
    Expr.ofText source ≠ .error (.unknownFunction name) := by
  intro h
  unfold Expr.ofText at h
  split at h
  · next e htokens =>
    obtain rfl := Except.error.inj h
    obtain ⟨place, fault, hfault⟩ := tokensFrom_error htokens
    cases hfault
  · next ts htokens =>
    split at h
    · next e hportable =>
      obtain rfl := Except.error.inj h
      unfold checkPortable at hportable
      split at hportable
      · cases hportable
      · cases hportable
    · obtain ⟨place, fault, hfault⟩ := Expr.ofTokens_error h
      cases hfault

theorem Program.ofSource_eq_unknown {scope : Scope} {source name : String} :
    Program.ofSource scope source = .error (.unknownFunction name) ↔
      ∃ e : Expr, e.IsRead source ∧ ∃ path, e.FirstAt scope.Unknown path name := by
  simp only [Expr.isRead_iff, ← unknownCall?_eq_some]
  unfold Program.ofSource
  cases hexpr : Expr.ofText source with
  | error e =>
    have hne : e ≠ .unknownFunction name := by
      rintro rfl
      exact Expr.ofText_ne_unknownFunction source name hexpr
    simp [hne]
  | ok e =>
    cases hcall : scope.unknownCall? e with
    | none => simp [hcall]
    | some other => simp [hcall]

/-- A program calls what is known only. -/
theorem Program.known_of_ofSource {scope : Scope} {source : String} {program : Program}
    (h : Program.ofSource scope source = .ok program) : program.expr.Known scope := by
  unfold Program.ofSource at h
  split at h
  · cases h
  · split at h
    · cases h
    · next hcall =>
      obtain rfl := Except.ok.inj h
      exact unknownCall?_eq_none.1 hcall

namespace ProgramCache

/-- Programs that were all compiled in one scope. -/
inductive FilledIn (scope : Scope) : ProgramCache → Prop where
  | empty : FilledIn scope []
  | compile {programs : ProgramCache} (h : FilledIn scope programs) (text : String) :
    FilledIn scope (programs.compile scope text).2

theorem FilledIn.fromScratch {scope : Scope} {programs : ProgramCache} (h : programs.FilledIn scope) :
    programs.FromScratch scope := by
  induction h with
  | empty => exact fromScratch_empty scope
  | compile _ text ih => exact (ih.compile text).2

theorem FilledIn.compile_eq {scope : Scope} {programs : ProgramCache} (h : programs.FilledIn scope)
    (text : String) : (programs.compile scope text).1 = Program.ofSource scope (joinReferences text) :=
  (h.fromScratch.compile text).1

theorem FilledIn.of_compile {scope : Scope} {programs next : ProgramCache} (h : programs.FilledIn scope)
    {text : String} {r : Except MatcherError Program} (hcompile : programs.compile scope text = (r, next)) :
    next.FilledIn scope ∧ Program.ofSource scope (joinReferences text) = r := by
  have hnext := h.compile text
  have hresult := h.compile_eq text
  rw [hcompile] at hnext hresult
  exact ⟨hnext, hresult.symm⟩

end ProgramCache

/-! ## Errors of compiling -/

/-- The errors of compiling. -/
def MatcherError.isStatic : MatcherError → Bool
  | .blocked _ _ => true
  | .malformed _ _ => true
  | .unknownFunction _ => true
  | _ => false

/-- A result that is no error of compiling. -/
def NoCompileError {α : Type} : Except MatcherError α → Prop
  | .ok _ => True
  | .error e => e.isStatic = false

section

variable {α β : Type}

theorem NoCompileError.bind {r : Except MatcherError α} {f : α → Except MatcherError β} (hr : NoCompileError r)
    (hf : ∀ a, NoCompileError (f a)) : NoCompileError (r >>= f) := by
  cases r with
  | error e => exact hr
  | ok a => exact hf a

theorem NoCompileError.map {r : Except MatcherError α} (hr : NoCompileError r) (f : α → β) :
    NoCompileError (r.map f) := by
  cases r with
  | error e => exact hr
  | ok a => trivial

/-- An error stays one that does not come from compiling, whatever was asked for. -/
theorem NoCompileError.error {e : MatcherError} (hr : NoCompileError r) (he : r = .error e) :
    NoCompileError (.error e : Except MatcherError β) := by
  subst he
  exact hr

namespace Value

theorem noCompileError_asBool (v : Value) : NoCompileError v.asBool := by
  cases v <;> trivial

theorem noCompileError_truth (v : Value) : NoCompileError v.truth := v.noCompileError_asBool.map Value.bool

theorem noCompileError_asString (what : String) (v : Value) : NoCompileError (v.asString what) := by
  cases v <;> trivial

theorem noCompileError_member (field : String) (v : Value) : NoCompileError (v.member field) := by
  unfold member
  split
  · split
    · trivial
    · rfl
  · rfl

theorem noCompileError_negate (v : Value) : NoCompileError v.negate := by
  cases v <;> trivial

theorem noCompileError_compare (a b : Value) : NoCompileError (a.compare b) := by
  unfold compare
  split
  · trivial
  · trivial
  · split
    · split_ifs <;> trivial
    · rfl

theorem noCompileError_withFloats (sign : String) (op : Float → Float → Float) (a b : Value) :
    NoCompileError (withFloats sign op a b) := by
  unfold withFloats
  split
  · trivial
  · rfl

theorem noCompileError_add (a b : Value) : NoCompileError (a.add b) := by
  unfold add
  split
  · dsimp only
    split
    · trivial
    · rfl
  · trivial
  · exact noCompileError_withFloats _ _ _ _

theorem noCompileError_arith (sign : String) (a b : Value) : NoCompileError (a.arith sign b) := by
  unfold arith
  split
  · split
    · trivial
    · rfl
  · split
    · exact noCompileError_withFloats _ _ _ _
    · rfl

end Value

theorem BinaryOp.noCompileError_apply (op : BinaryOp) (a b : Value) : NoCompileError (op.apply a b) := by
  have hordered : ∀ test : Ordering → Bool, NoCompileError ((a.compare b).map fun o => Value.bool (test o)) :=
    fun test => (a.noCompileError_compare b).map _
  cases op with
  | eq => trivial
  | ne => trivial
  | lt => exact hordered _
  | le => exact hordered _
  | gt => exact hordered _
  | ge => exact hordered _
  | add => exact a.noCompileError_add b
  | sub => exact a.noCompileError_arith _ b
  | mul => exact a.noCompileError_arith _ b
  | div => exact a.noCompileError_arith _ b
  | rem => exact a.noCompileError_arith _ b
  | and => exact a.noCompileError_asBool.bind fun _ => b.noCompileError_asBool.bind fun _ => trivial
  | or => exact a.noCompileError_asBool.bind fun _ => b.noCompileError_asBool.bind fun _ => trivial

theorem RoleManager.noCompileError_answer (m : RoleManager) (name : String) (args : List Value) :
    NoCompileError (m.answer name args) := by
  unfold RoleManager.answer
  split
  · exact (Value.noCompileError_asString _ _).bind fun _ => (Value.noCompileError_asString _ _).bind fun _ =>
      trivial
  · exact (Value.noCompileError_asString _ _).bind fun _ => (Value.noCompileError_asString _ _).bind fun _ =>
      (Value.noCompileError_asString _ _).bind fun _ => trivial
  · rfl

end

/-! ## What gave an error -/

/-- An event gives an error: a registered function returns it, or compiling a stored text does. -/
def EvalEvent.GivesError (scope : Scope) (e : MatcherError) : EvalEvent → Prop
  | .called name args result =>
    result = .error e ∧ ∃ f, scope.functions.find name = some f ∧ f.run args = .error e
  | .compiled _ text result =>
    result = .error e ∧ Program.ofSource scope (joinReferences text) = .error e

/-- An error of compiling was given by the last event. -/
def GivenLast {α : Type} (scope : Scope) (log : List EvalEvent) (r : Except MatcherError α) : Prop :=
  ∀ e, r = .error e → e.isStatic = true → ∃ before event, log = before ++ [event] ∧ event.GivesError scope e

section

variable {α β : Type} {scope : Scope} {log log' : List EvalEvent} {r : Except MatcherError α}

theorem NoCompileError.givenLast (h : NoCompileError r) : GivenLast scope log r := by
  rintro e rfl hstatic
  rw [show e.isStatic = false from h] at hstatic
  exact absurd hstatic Bool.false_ne_true

theorem GivenLast.bind {f : α → Except MatcherError β} (h : GivenLast scope log r)
    (hf : ∀ a, NoCompileError (f a)) : GivenLast scope log (r >>= f) := by
  cases r with
  | ok a => exact (hf a).givenLast
  | error e' =>
    rintro e heq hstatic
    obtain rfl : e' = e := Except.error.inj heq
    exact h e' rfl hstatic

theorem GivenLast.map (h : GivenLast scope log r) (f : α → β) : GivenLast scope log (r.map f) := by
  cases r with
  | ok a => exact NoCompileError.givenLast trivial
  | error e' =>
    rintro e heq hstatic
    obtain rfl : e' = e := Except.error.inj heq
    exact h e' rfl hstatic

/-- What happened before the last event does not matter. -/
theorem GivenLast.append (h : GivenLast scope log' r) (log : List EvalEvent) :
    GivenLast scope (log ++ log') r := by
  intro e heq hstatic
  obtain ⟨before, event, rfl, hgives⟩ := h e heq hstatic
  exact ⟨log ++ before, event, (List.append_assoc _ _ _).symm, hgives⟩

theorem givenLast_ok (a : α) : GivenLast scope log (.ok a : Except MatcherError α) :=
  NoCompileError.givenLast trivial

/-- An error is the same error of what failed for it. -/
theorem GivenLast.error {e : MatcherError} (h : GivenLast scope log (.error e : Except MatcherError α)) :
    GivenLast scope log (.error e : Except MatcherError β) := by
  rintro e' heq hstatic
  obtain rfl : e = e' := Except.error.inj heq
  exact h e rfl hstatic

end

/-! ## No error of compiling comes by itself -/

section

variable {scope : Scope} {bindings : Bindings}

@[simp] theorem MatcherFunction.programs_record (f : MatcherFunction) (args : List Value) (state : EvalState) :
    (f.record args state).programs = state.programs := by
  unfold MatcherFunction.record
  split <;> rfl

mutual

/-- Evaluating what has known calls fills the programs in the scope, and an error of compiling is one that
the last event gave.  The rule for an unknown call does not apply, and a stored text that compiles has known
calls again. -/
theorem Evaluates.givenLast : ∀ {level e state log r next}, Evaluates scope bindings level e state log r next →
    state.programs.FilledIn scope → e.Known scope →
    next.programs.FilledIn scope ∧ GivenLast scope log r
  | _, _, _, _, _, _, .literal, hfilled, _ => ⟨hfilled, givenLast_ok _⟩
  | _, _, _, _, _, _, .bound _, hfilled, _ => ⟨hfilled, givenLast_ok _⟩
  | _, _, _, _, _, _, .unbound _, hfilled, _ => ⟨hfilled, NoCompileError.givenLast rfl⟩
  | _, _, _, _, _, _, .attr hbase, hfilled, hknown => by
    obtain ⟨hnext, hr⟩ := hbase.givenLast hfilled hknown
    exact ⟨hnext, hr.bind fun v => v.noCompileError_member _⟩
  | _, _, _, _, _, _, .not hoperand, hfilled, hknown => by
    obtain ⟨hnext, hr⟩ := hoperand.givenLast hfilled hknown
    exact ⟨hnext, hr.bind fun v => v.noCompileError_asBool.map _⟩
  | _, _, _, _, _, _, .neg hoperand, hfilled, hknown => by
    obtain ⟨hnext, hr⟩ := hoperand.givenLast hfilled hknown
    exact ⟨hnext, hr.bind Value.noCompileError_negate⟩
  | _, _, _, _, _, _, .decided _ hleft _, hfilled, hknown => by
    obtain ⟨hnext, hr⟩ := hleft.givenLast hfilled (Expr.known_binary.1 hknown).1
    exact ⟨hnext, hr.bind Value.noCompileError_truth⟩
  | _, _, _, _, _, _, .undecided _ hleft _ hright, hfilled, hknown => by
    obtain ⟨hmiddle, -⟩ := hleft.givenLast hfilled (Expr.known_binary.1 hknown).1
    obtain ⟨hnext, hr⟩ := hright.givenLast hmiddle (Expr.known_binary.1 hknown).2
    exact ⟨hnext, (hr.bind Value.noCompileError_truth).append _⟩
  | _, _, _, _, _, _, .leftFails _ hleft, hfilled, hknown =>
    hleft.givenLast hfilled (Expr.known_binary.1 hknown).1
  | _, _, _, _, _, _, .binary _ hleft hright, hfilled, hknown => by
    obtain ⟨hmiddle, -⟩ := hleft.givenLast hfilled (Expr.known_binary.1 hknown).1
    obtain ⟨hnext, hr⟩ := hright.givenLast hmiddle (Expr.known_binary.1 hknown).2
    exact ⟨hnext, (hr.bind fun b => BinaryOp.noCompileError_apply _ _ b).append _⟩
  | _, _, _, _, _, _, .needleFails hneedle, hfilled, hknown =>
    hneedle.givenLast hfilled (Expr.known_isIn.1 hknown).1
  | _, _, _, _, _, _, .isIn hneedle hitems, hfilled, hknown => by
    obtain ⟨hmiddle, -⟩ := hneedle.givenLast hfilled (Expr.known_isIn.1 hknown).1
    obtain ⟨hnext, hr⟩ := hitems.givenLast hmiddle (Expr.known_isIn.1 hknown).2
    exact ⟨hnext, (hr.map _).append _⟩
  | _, _, _, _, _, _, .argumentFails hargs, hfilled, hknown => by
    obtain ⟨hnext, hr⟩ := hargs.givenLast hfilled (Expr.known_call.1 hknown).2
    exact ⟨hnext, hr.error⟩
  | _, _, _, _, _, _, .call hargs hcall, hfilled, hknown => by
    obtain ⟨hmiddle, -⟩ := hargs.givenLast hfilled (Expr.known_call.1 hknown).2
    obtain ⟨hnext, hr⟩ := hcall.givenLast hmiddle (Expr.known_call.1 hknown).1
    exact ⟨hnext, hr.append _⟩

theorem EvaluatesAll.givenLast : ∀ {level es state log rs next},
    EvaluatesAll scope bindings level es state log rs next →
    state.programs.FilledIn scope → Expr.AllKnown scope es →
    next.programs.FilledIn scope ∧ GivenLast scope log rs
  | _, _, _, _, _, _, .nil, hfilled, _ => ⟨hfilled, givenLast_ok _⟩
  | _, _, _, _, _, _, .headFails hfirst, hfilled, hknown => by
    obtain ⟨hnext, hr⟩ := hfirst.givenLast hfilled (Expr.allKnown_cons.1 hknown).1
    exact ⟨hnext, hr.error⟩
  | _, _, _, _, _, _, .cons hfirst hrest, hfilled, hknown => by
    obtain ⟨hmiddle, -⟩ := hfirst.givenLast hfilled (Expr.allKnown_cons.1 hknown).1
    obtain ⟨hnext, hr⟩ := hrest.givenLast hmiddle (Expr.allKnown_cons.1 hknown).2
    exact ⟨hnext, (hr.map _).append _⟩

theorem Calls.givenLast : ∀ {level name vs state log r next},
    Calls scope bindings level name vs state log r next →
    state.programs.FilledIn scope → ¬ scope.Unknown name →
    next.programs.FilledIn scope ∧ GivenLast scope log r
  | _, _, _, _, _, _, _, .evalArity _, hfilled, _ => ⟨hfilled, NoCompileError.givenLast rfl⟩
  | _, _, _, _, _, _, _, .evalTooDeep _, hfilled, _ => ⟨hfilled, NoCompileError.givenLast rfl⟩
  | _, _, _, _, _, _, _, .evalNotText _ htext, hfilled, _ =>
    ⟨hfilled, ((Value.noCompileError_asString _ _).error htext).givenLast⟩
  | _, _, _, _, _, _, _, .evalRefused _ _ hcompile, hfilled, _ => by
    obtain ⟨hnext, hresult⟩ := hfilled.of_compile hcompile
    refine ⟨hnext, ?_⟩
    rintro e heq -
    obtain rfl := Except.error.inj heq
    exact ⟨[], _, rfl, rfl, hresult⟩
  | _, _, _, _, _, _, _, .evalText _ _ hcompile hprogram, hfilled, _ => by
    obtain ⟨hprograms, hresult⟩ := hfilled.of_compile hcompile
    obtain ⟨hnext, hr⟩ := hprogram.givenLast hprograms (Program.known_of_ofSource hresult)
    exact ⟨hnext, (hr.bind Value.noCompileError_truth).append [_]⟩
  | _, _, _, _, _, _, _, .role _ _, hfilled, _ => ⟨hfilled, (RoleManager.noCompileError_answer _ _ _).givenLast⟩
  | _, _, _, _, _, _, _, .function (f := f) _ _ hfunction, hfilled, _ => by
    refine ⟨by rwa [MatcherFunction.programs_record], ?_⟩
    rintro e heq -
    exact ⟨[], _, rfl, heq, f, hfunction, heq⟩
  | _, _, _, _, _, _, _, .unknown hname hmanager hfunction, _, hknown =>
    absurd (Scope.unknown_of_find hname hmanager hfunction) hknown

end

end

/-- What a program evaluates to, from its derivation. -/
theorem Program.givenLast_evaluate {scope : Scope} {bindings : Bindings} {program : Program}
    {state next : EvalState} {r : Except MatcherError Bool} (hknown : program.expr.Known scope)
    (hfilled : state.programs.FilledIn scope)
    (hrun : (program.evaluate scope bindings).run state = (r, next)) :
    next.programs.FilledIn scope ∧ ∀ e, r = .error e → e.isStatic = true →
      ∃ log event, Evaluates scope bindings 0 program.expr state (log ++ [event]) (.error e) next ∧
        event.GivesError scope e := by
  obtain ⟨log, value, last, hlog⟩ : ∃ log value last,
      Evaluates scope bindings 0 program.expr state log value last := by
    obtain ⟨log, hlog⟩ := Expr.allowsRuns_evalAt scope bindings 0 program.expr state
    exact ⟨log, _, _, hlog⟩
  obtain ⟨rfl, rfl⟩ := Prod.mk.inj (hrun.symm.trans hlog.run_evaluate)
  obtain ⟨hnext, hexplained⟩ := hlog.givenLast hfilled hknown
  refine ⟨hnext, ?_⟩
  intro e he hstatic
  cases value with
  | ok v =>
    have hnone : NoCompileError (.error e : Except MatcherError Bool) := v.noCompileError_asBool.error he
    rw [show e.isStatic = false from hnone] at hstatic
    exact absurd hstatic Bool.false_ne_true
  | error e' =>
    obtain rfl : e' = e := Except.error.inj he
    obtain ⟨before, event, rfl, hgives⟩ := hexplained e' rfl hstatic
    exact ⟨before, event, hlog, hgives⟩

/-! ## Top theorem -/

/-- **Calls are checked before anything is evaluated.**  With programs that were compiled in the same scope,
compiling a text fails for an unknown function exactly when the text is read and some call anywhere in its
tree is unknown, and the function it names is that of the first such call.  A program that compiled gives an
error of compiling only when a registered function returned it, or compiling the text of an `eval` did. -/
theorem compile_checks_calls (scope : Scope) {programs : ProgramCache} (hfilled : programs.FilledIn scope)
    (text : String) :
    ((∃ name, (programs.compile scope text).1 = .error (.unknownFunction name)) ↔
      ∃ e : Expr, e.IsRead (joinReferences text) ∧ ∃ path name, e.CallAt path name ∧ scope.Unknown name) ∧
    (∀ name, (programs.compile scope text).1 = .error (.unknownFunction name) →
      ∃ e : Expr, e.IsRead (joinReferences text) ∧ ∃ path, e.FirstAt scope.Unknown path name) ∧
    ∀ program, (programs.compile scope text).1 = .ok program →
      ∀ (bindings : Bindings) (state next : EvalState) (r : Except MatcherError Bool),
        state.programs.FilledIn scope → (program.evaluate scope bindings).run state = (r, next) →
          next.programs.FilledIn scope ∧ ∀ e, r = .error e → e.isStatic = true →
            ∃ log event, Evaluates scope bindings 0 program.expr state (log ++ [event]) (.error e) next ∧
              event.GivesError scope e := by
  rw [hfilled.compile_eq text]
  refine ⟨?_, ?_, ?_⟩
  · simp only [Program.ofSource_eq_unknown]
    constructor
    · rintro ⟨name, e, hread, path, hfirst⟩
      exact ⟨e, hread, path, name, hfirst.callAt, hfirst.holds⟩
    · rintro ⟨e, hread, path, name, hcall, hunknown⟩
      have hsome : scope.unknownCall? e ≠ none := by
        intro hnone
        exact unknownCall?_eq_none.1 hnone name (Expr.mem_calls.2 ⟨path, hcall⟩) hunknown
      obtain ⟨first, hfirst⟩ := Option.ne_none_iff_exists'.1 hsome
      exact ⟨first, e, hread, unknownCall?_eq_some.1 hfirst⟩
  · intro name hname
    exact Program.ofSource_eq_unknown.1 hname
  · intro program hprogram bindings state next r hstate hrun
    exact Program.givenLast_evaluate (Program.known_of_ofSource hprogram) hstate hrun

/-- A call in an argument of a call, left of another one. -/
theorem compile_checks_calls_argument :
    ProgramCache.FilledIn ⟨.builtins, []⟩ [] ∧
      ∃ e : Expr, e.IsRead "keyMatch(r_obj, lost(gone(1))) && gone(2)" ∧
        ∃ path, e.FirstAt (Scope.Unknown ⟨.builtins, []⟩) path "lost" := by
  have hjoin : joinReferences "keyMatch(r.obj, lost(gone(1))) && gone(2)" =
      "keyMatch(r_obj, lost(gone(1))) && gone(2)" := by cbv
  have hcompile : (ProgramCache.compile [] ⟨.builtins, []⟩ "keyMatch(r.obj, lost(gone(1))) && gone(2)").1 =
      .error (.unknownFunction "lost") := by cbv
  have hfirst := (compile_checks_calls ⟨.builtins, []⟩ .empty "keyMatch(r.obj, lost(gone(1))) && gone(2)").2.1
    "lost" hcompile
  rw [hjoin] at hfirst
  exact ⟨.empty, hfirst⟩

end AccessControl
