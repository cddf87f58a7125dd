import AccessControl.Proofs.Enforcer.Valid
import AccessControl.Store.Memory
import Mathlib
/-!
# Enforcement

In every state a request of the right length, whose definitions are there and whose matcher compiles, is
decided, and over one or more rows the decision is the full scan of the matching rows.

    e.Valid → (e.enforce ctx request).1 = .ok (fullScan kind …)        (`Valid.enforce_eq`)
    without rows (e.enforce ctx request).1 = .ok ⟨kind.default, []⟩    (`Valid.enforce_eq_default`)
-/

namespace AccessControl

theorem Model.question_eq {m : Model} {ctx : Context} {request : List Value}
    {r p effect matcher : Definition} {kind : EffectKind} (hr : m.find? "r" ctx.request = some r)
    (harity : request.length = r.fields.length) (hp : m.find? "p" ctx.policy = some p)
    (heffect : m.find? "e" ctx.effect = some effect) (hkind : EffectKind.ofText effect.value = .ok kind)
    (hmatcher : m.find? "m" ctx.matcher = some matcher) :
    m.question ctx request = .ok ⟨r.fields, request, p, kind, matcher.value⟩ := by
  simp [question, Model.find, hr, harity, hp, heffect, hkind, hmatcher]

namespace Enforcer

variable {σ : Type}

/-- A definition of an effect is one. -/
theorem Valid.effect {e : Enforcer σ} (he : e.Valid) {name : String} {d : Definition}
    (hd : e.model.find? "e" name = some d) : ∃ kind, EffectKind.ofText d.value = .ok kind := by
  refine (e.model.checkEffects_iff.1 he.effects) d ((he.model.mem_definitions "e" d).2 ?_)
  rwa [he.model.key "e" name d hd]

/-- The rows of the policy definition whose matcher holds for a request, in order. -/
def matching (e : Enforcer σ) (r p : Definition) (program : Program) (request : List Value) :
    List Row :=
  p.rows.filter fun row => program.holds e.scope ⟨r.fields, request, p.fields, row⟩

section

variable {e : Enforcer σ} (he : e.Valid) (hon : e.config.enabled = true) {ctx : Context}
  {request : List Value}

include he hon

/-- A question whose matcher compiles is decided by its program, with programs that are right. -/
theorem Valid.enforce_decide {q : Question} {program : Program}
    (hquestion : e.model.question ctx request = .ok q)
    (hcompile : Program.ofSource e.scope (joinReferences q.matcher) = .ok program) :
    ∃ state, state.programs.FromScratch e.scope ∧
      (e.enforce ctx request).1 = .ok (q.decide program e.scope e.effector state).1 := by
  obtain ⟨hresult, hright⟩ := EvalM.gives_compile q.matcher e.evaluation he.programs
  rw [hcompile] at hresult
  rcases hrun : (EvalM.compile e.scope q.matcher).run e.evaluation with ⟨result, state⟩
  rw [hrun] at hresult hright
  dsimp only at hresult hright
  subst hresult
  refine ⟨state, hright, ?_⟩
  unfold enforce
  rw [if_pos hon, hquestion]
  dsimp only
  rw [hrun]

variable (heffector : e.effector = .standard) {r p effect matcher : Definition} {kind : EffectKind}
  {program : Program} (hr : e.model.find? "r" ctx.request = some r)
  (hp : e.model.find? "p" ctx.policy = some p) (heffect : e.model.find? "e" ctx.effect = some effect)
  (hkind : EffectKind.ofText effect.value = .ok kind)
  (hmatcher : e.model.find? "m" ctx.matcher = some matcher)
  (harity : request.length = r.fields.length)
  (hcompile : Program.ofSource e.scope (joinReferences matcher.value) = .ok program)

include heffector hr hp heffect hkind hmatcher harity hcompile

theorem Valid.enforce_eq (hrows : p.rows ≠ []) :
    (e.enforce ctx request).1 =
      .ok (fullScan kind p.statedEffect (e.matching r p program request)) := by
  have hquestion := Model.question_eq hr harity hp heffect hkind hmatcher
  obtain ⟨state, hright, hdecision⟩ := he.enforce_decide hon hquestion hcompile
  rw [hdecision, heffector, Question.decide_eq_fullScan _ program hright hrows]
  refine congrArg Except.ok (fullScan_congr kind fun row hrow => ?_)
  exact Question.effectOf_eq _ row ((he.model.tidy "p" ctx.policy p hp).arity row (List.mem_of_mem_filter hrow))

/-- Without rows, and where the matcher does not hold of empty fields, the default of the effect decides. -/
theorem Valid.enforce_eq_default (hrows : p.rows = [])
    (hfails : program.holds e.scope ⟨r.fields, request, p.fields, []⟩ = false) :
    (e.enforce ctx request).1 = .ok ⟨kind.default, []⟩ := by
  have hquestion := Model.question_eq hr harity hp heffect hkind hmatcher
  obtain ⟨state, hright, hdecision⟩ := he.enforce_decide hon hquestion hcompile
  rw [heffector] at hdecision
  exact hdecision.trans (congrArg Except.ok (Question.decide_eq_default
    ⟨r.fields, request, p, kind, matcher.value⟩ program hright hrows hfails))

end

/-! ## Top theorem (proved from the lemmas above) -/

variable [PolicyStore σ]

/-- **Enforcement is a full scan.**  In every state that any calls lead to, with enforcement on and the
rule of the effect kind: when the definitions of a context are there, the request has a value for every
field, the matcher compiles and there are policy rows, the request is decided, and the decision is that
over all rows whose matcher gives `true`, in store order. -/
theorem enforce_eq_fullScan {e : Enforcer σ} (he : Reachable Made (fun _ _ => True) e)
    (hon : e.config.enabled = true) (heffector : e.effector = .standard) (ctx : Context)
    (request : List Value) {r p effect matcher : Definition} {program : Program}
    (hr : e.model.find? "r" ctx.request = some r) (hp : e.model.find? "p" ctx.policy = some p)
    (heffect : e.model.find? "e" ctx.effect = some effect)
    (hmatcher : e.model.find? "m" ctx.matcher = some matcher)
    (harity : request.length = r.fields.length)
    (hcompile : Program.ofSource e.scope (joinReferences matcher.value) = .ok program)
    (hrows : p.rows ≠ []) :
    ∃ kind, EffectKind.ofText effect.value = .ok kind ∧
      (e.enforce ctx request).1 =
        .ok (fullScan kind p.statedEffect (e.matching r p program request)) := by
  have hvalid := he.valid fun _ h => h
  obtain ⟨kind, hkind⟩ := hvalid.effect heffect
  exact ⟨kind, hkind, hvalid.enforce_eq hon heffector hr hp heffect hkind hmatcher harity hcompile
    hrows⟩

set_option maxRecDepth 20000 in
/-- A row that denies wins over one that allows before it, and explains the decision. -/
theorem enforce_first_denied :
    ∃ e : Enforcer MemoryStore, Reachable Made (fun _ _ => True) e ∧
      (e.enforce {} [.str "ann"]).1 = .ok ⟨false, [["ann", "deny"]]⟩ := by
  let rows : List Row := [["ann", "allow"], ["bob", "deny"], ["ann", "deny"]]
  let p : Definition := .make "p" "p" "sub, eft"
  let effect : Definition := .make "e" "e" EffectKind.allowAndDeny.text
  have hkind : EffectKind.ofText effect.value = .ok .allowAndDeny := EffectKind.ofText_text _
  obtain ⟨e, hmade, hon, hsave, heffector, hr, hp, heffect, hm⟩ : ∃ e : Enforcer MemoryStore,
      e.Made ∧ e.config.enabled = true ∧ e.config.autoSave = false ∧ e.effector = .standard ∧
      e.model.find? "r" "r" = some (.make "r" "r" "sub") ∧ e.model.find? "p" "p" = some p ∧
      e.model.find? "e" "e" = some effect ∧
      e.model.find? "m" "m" = some (.make "m" "m" "r.sub == p.sub") :=
    ⟨_, ⟨_, {}, { autoSave := false },
      ⟨[.define "r" "r" "sub", .define "p" "p" "sub, eft", .define "e" "e" EffectKind.allowAndDeny.text,
        .define "m" "m" "r.sub == p.sub"], rfl⟩, rfl⟩, rfl, rfl, rfl, rfl, rfl, rfl, rfl⟩
  let m : Model := e.model.modify "p" "p" (·.insertAll rows)
  have hfind : ∀ sec name, m.find? sec name = if "p" = sec ∧ "p" = name then
      (e.model.find? sec name).map (·.insertAll rows) else e.model.find? sec name :=
    fun sec name => e.model.find?_modify "p" "p" _ sec name
  have horder : ordersBySubject e.model = false := by simp [ordersBySubject, heffect, hkind]
  have hadd : (e.perform (.addRows "p" "p" rows)).2 = { e with model := m } := by
    show (outcome (e.addRows "p" "p" rows)).2 = _
    rw [addRows_unsaved (Or.inl rfl) hp (Definition.tidy_make _ _ _) (by decide) (by decide)
      (by decide) (by decide) hsave horder rfl]
    rfl
  have hk : Reachable Made (fun _ _ => True) ({ e with model := m } : Enforcer MemoryStore) :=
    hadd ▸ .step (.addRows "p" "p" rows) (.start hmade) trivial
  have hexpr : Expr.ofText (joinReferences "r.sub == p.sub") =
      .ok (.binary .eq (.field "r_sub") (.field "p_sub")) := by cbv
  have hcompile : ∀ scope, Program.ofSource scope (joinReferences "r.sub == p.sub") =
      .ok ⟨joinReferences "r.sub == p.sub", .binary .eq (.field "r_sub") (.field "p_sub")⟩ := by
    intro scope
    simp [Program.ofSource, hexpr, Scope.unknownCall?, Expr.calls]
  have hrows : m.find? "p" "p" = some (p.insertAll rows) := by
    rw [hfind, if_pos ⟨rfl, rfl⟩, hp]
    rfl
  obtain ⟨kind, hkind', hresult⟩ := enforce_eq_fullScan hk hon heffector {} [.str "ann"]
    ((hfind "r" "r").trans hr) hrows ((hfind "e" "e").trans heffect) ((hfind "m" "m").trans hm) rfl
    (hcompile _) (by decide)
  rw [hkind] at hkind'
  rw [← Except.ok.inj hkind'] at hresult
  exact ⟨_, hk, hresult.trans rfl⟩

end Enforcer

end AccessControl
