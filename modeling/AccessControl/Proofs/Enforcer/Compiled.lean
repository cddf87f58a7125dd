import AccessControl.Proofs.Enforcer.Enforcement
import AccessControl.Proofs.Enforcer.Evaluations
/-!
# Compiled programs in every state

A hit in the compiled programs skips every check: tokens, portability, grammar, and whether the calls are
known.  It may, since whatever takes away something callable drops the programs, and decisions, which put
programs there also for texts of policy rows, change nothing that may be called.

    e.evaluation.programs.find key = some program → compiling key from scratch gives program
    compiling with the programs at hand = compiling from scratch
    e decides as it would without what is compiled, and so does e after decisions
                                                                       (`compiled_as_from_scratch`)
-/

namespace AccessControl

namespace Enforcer

variable {σ : Type}

/-- The enforcer after decisions. -/
def afterDecisions (e : Enforcer σ) (earlier : List (Context × List Value)) : Enforcer σ :=
  earlier.foldl (fun e asked => (e.enforce asked.1 asked.2).2) e

/-- Decisions add to the evaluation only, and keep the programs right. -/
theorem afterDecisions_frame (e : Enforcer σ) (earlier : List (Context × List Value)) :
    ∃ evaluation, e.afterDecisions earlier = e.withEvaluation evaluation ∧
      (e.evaluation.programs.FromScratch e.scope → evaluation.programs.FromScratch e.scope) := by
  induction earlier generalizing e with
  | nil => exact ⟨e.evaluation, rfl, id⟩
  | cons asked more ih =>
    obtain ⟨evaluation, hstep, hright⟩ := e.enforce_frame asked.1 asked.2
    have hstep : (e.enforce asked.1 asked.2).2 = e.withEvaluation evaluation := hstep
    obtain ⟨last, hmore, hlast⟩ := ih (e.withEvaluation evaluation)
    refine ⟨last, ?_, fun h => hlast (hright h)⟩
    show afterDecisions (e.enforce asked.1 asked.2).2 more = e.withEvaluation last
    rw [hstep, hmore]
    rfl

/-- A decision after others is the decision without anything compiled. -/
theorem Valid.enforce_afterDecisions {e : Enforcer σ} (he : e.Valid)
    (earlier : List (Context × List Value)) (ctx : Context) (request : List Value) :
    ((e.afterDecisions earlier).enforce ctx request).1 =
      ((e.withEvaluation {}).enforce ctx request).1 := by
  obtain ⟨evaluation, hafter, hright⟩ := e.afterDecisions_frame earlier
  have hforgotten : ((e.withEvaluation {}).enforce ctx request).1 = (e.enforce ctx request).1 :=
    enforce_withEvaluation he.programs (ProgramCache.fromScratch_empty e.scope) ctx request
  have hremembered :
      ((e.withEvaluation evaluation).enforce ctx request).1 = (e.enforce ctx request).1 :=
    enforce_withEvaluation he.programs (hright he.programs) ctx request
  rw [hafter, hremembered, hforgotten]

/-! ## Top theorem -/

variable [PolicyStore σ]

/-- **What is compiled is what compiling from scratch gives.**  In every state that any calls lead to,
whatever they answered: every program at hand is the one its text compiles to from scratch; compiling
gives the same program or the same error with the programs at hand as without any; and decisions are the
same without the programs and after any other decisions. -/
theorem compiled_as_from_scratch {e : Enforcer σ} (he : Reachable Made (fun _ _ => True) e) :
    (∀ key program, e.evaluation.programs.find key = some program →
      (ProgramCache.compile [] e.scope key).1 = .ok program) ∧
    (∀ text, (e.evaluation.programs.compile e.scope text).1 =
      (ProgramCache.compile [] e.scope text).1) ∧
    ∀ earlier ctx request, ((e.afterDecisions earlier).enforce ctx request).1 =
      ((e.withEvaluation {}).enforce ctx request).1 := by
  have hvalid := he.valid fun _ h => h
  refine ⟨hvalid.programs, fun text => ?_, fun earlier ctx request => ?_⟩
  · have hcompile := (hvalid.programs.compile text).1
    rw [hcompile, ProgramCache.compile_empty]
  · exact hvalid.enforce_afterDecisions earlier ctx request

/-- A decision leaves its matcher compiled, as it compiles from scratch. -/
theorem compiled_after_decision :
    ∃ e : Enforcer MemoryStore, Reachable Made (fun _ _ => True) e ∧
      ∃ program, e.evaluation.programs.find "r_sub == p_sub" = some program ∧
        (ProgramCache.compile [] e.scope "r_sub == p_sub").1 = .ok program := by
  let p : Definition := .make "p" "p" "sub"
  let effect : Definition := .make "e" "e" EffectKind.allowOverride.text
  have hkind : EffectKind.ofText effect.value = .ok .allowOverride := EffectKind.ofText_text _
  obtain ⟨e, hmade, hon, hnothing, hr, hp, heffect, hm⟩ : ∃ e : Enforcer MemoryStore,
      e.Made ∧ e.config.enabled = true ∧ e.evaluation = {} ∧
      e.model.find? "r" "r" = some (.make "r" "r" "sub") ∧ e.model.find? "p" "p" = some p ∧
      e.model.find? "e" "e" = some effect ∧
      e.model.find? "m" "m" = some (.make "m" "m" "r.sub == p.sub") :=
    ⟨_, ⟨_, {}, { autoSave := false },
      ⟨[.define "r" "r" "sub", .define "p" "p" "sub", .define "e" "e" EffectKind.allowOverride.text,
        .define "m" "m" "r.sub == p.sub"], rfl⟩, rfl⟩, rfl, rfl, rfl, rfl, rfl, rfl⟩
  let program : Program := ⟨"r_sub == p_sub", .binary .eq (.field "r_sub") (.field "p_sub")⟩
  have hquestion : e.model.question {} [.str "ann"] = .ok ⟨_, [.str "ann"], p, .allowOverride, _⟩ :=
    Model.question_eq hr rfl hp heffect hkind hm
  have hjoin : joinReferences "r.sub == p.sub" = "r_sub == p_sub" := by cbv
  have hexpr : Expr.ofText "r_sub == p_sub" = .ok program.expr := by cbv
  have hsource : Program.ofSource e.scope "r_sub == p_sub" = .ok program := by
    simp [Program.ofSource, hexpr, Scope.unknownCall?, Expr.calls, program]
  have hcompile : (EvalM.compile e.scope "r.sub == p.sub").run {} =
      (.ok program, { programs := [("r_sub == p_sub", program)] }) := by
    have hscratch : ProgramCache.compile [] e.scope "r.sub == p.sub" =
        (.ok program, [("r_sub == p_sub", program)]) := by
      unfold ProgramCache.compile
      simp only [hjoin, hsource, Table.find_nil]
      rfl
    show (EvalM.lift (ProgramCache.compile [] e.scope "r.sub == p.sub").1).run
      { programs := (ProgramCache.compile [] e.scope "r.sub == p.sub").2 } = _
    rw [hscratch]
    rfl
  have hprograms : (e.enforce {} [.str "ann"]).2.evaluation.programs =
      [("r_sub == p_sub", program)] := by
    unfold enforce
    rw [if_pos hon, hquestion, hnothing]
    dsimp only
    rw [show (Definition.make "m" "m" "r.sub == p.sub").value = "r.sub == p.sub" from rfl, hcompile]
    rfl
  have hreached : Reachable Made (fun _ _ => True) (e.perform (.enforce {} [.str "ann"])).2 :=
    .step (.enforce {} [.str "ann"]) (.start hmade) trivial
  have hfound : (e.perform (.enforce {} [.str "ann"])).2.evaluation.programs.find "r_sub == p_sub" =
      some program := by
    show (e.enforce {} [.str "ann"]).2.evaluation.programs.find _ = _
    rw [hprograms]
    rfl
  exact ⟨_, hreached, program, hfound,
    (compiled_as_from_scratch hreached).1 "r_sub == p_sub" program hfound⟩

end Enforcer

end AccessControl
