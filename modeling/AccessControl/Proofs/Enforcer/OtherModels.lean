import AccessControl.Proofs.Enforcer.Enforcement
import AccessControl.Proofs.Enforcer.Mirrored
/-!
# Other models that cannot be taken

Another model is taken before its rows are loaded.  A definition of an effect that is none is noticed first,
and then nothing changes.  If the load fails, for whatever reason, the definitions, the rows and the links
that were there are gone already, and the enforcer goes on with the other model as it came: requests are
decided by its definitions, over the rows it brought along.

    e.setModel model = (.error err, k) → k = e, or k has `model` and new managers
                                                                       (`setModel_error`)
-/

namespace AccessControl

namespace Enforcer

variable {σ : Type}

/-- An enforcer with another model and new managers, before any rows are loaded. -/
def withModel (e : Enforcer σ) (model : Model) : Enforcer σ :=
  ({ e with model, managers := [] } : Enforcer σ).initManagers.dropPrograms

theorem buildLinks_eq (e : Enforcer σ) :
    e.buildLinks.2 = { e with managers := e.buildLinks.2.managers } := rfl

/-- A model whose links are refused leaves what a rebuild of the links there gives. -/
theorem install_error_eq {e k : Enforcer σ} {m : Model} {err : Error}
    (h : e.install m = (.error err, k)) : e.config.autoLinks = true ∧ k = e.buildLinks.2 := by
  have hauto : e.config.autoLinks = true := by
    by_contra hoff
    unfold install at h
    rw [if_neg hoff] at h
    simp at h
  have hmanagers := (managers_install_error hauto h).2
  refine ⟨hauto, ?_⟩
  unfold install at h
  rw [if_pos hauto] at h
  split at h
  · simp at h
  · next l hlinks =>
    -- links are all that two builds change, and the model is put back in between
    have hl : l = { e with model := m.sorted, managers := l.managers } := by
      rw [← (Prod.mk.inj hlinks).2]
    have hk : k = { l with model := e.model, managers := k.managers } := by
      rw [← (Prod.mk.inj h).2]
      exact buildLinks_eq _
    rw [hk, hl, hmanagers, ← buildLinks_eq]

/-- A load that fails leaves all but the store and the links, which are those that were there or those that a
rebuild gives. -/
theorem finishLoad_error_eq {e k : Enforcer σ} {loaded : Except Error Unit × Model × σ} {err : Error}
    (h : e.finishLoad loaded = (.error err, k)) : k = { e with store := k.store } ∨
      e.config.autoLinks = true ∧ k = { e.buildLinks.2 with store := k.store } := by
  match loaded, h with
  | (.error _, m, store), h =>
    rw [← (Prod.mk.inj h).2]
    exact Or.inl rfl
  | (.ok (), m, store), h =>
    obtain ⟨hauto, hk⟩ := install_error_eq (e := { e with store }) h
    refine Or.inr ⟨hauto, ?_⟩
    rw [hk]
    rfl

variable [PolicyStore σ]

theorem setModel_eq (e : Enforcer σ) {model : Model} (h : model.checkEffects = .ok ()) :
    e.setModel model = (e.withModel model).load := by
  unfold setModel
  rw [h]
  rfl

/-- Another model is refused, and nothing changes, or there is a load into it. -/
theorem setModel_cases {e k : Enforcer σ} {model : Model} {result : Except Error Unit}
    (h : e.setModel model = (result, k)) : k = e ∨ (e.withModel model).load = (result, k) := by
  cases heffects : model.checkEffects with
  | error fault =>
    unfold setModel at h
    rw [heffects] at h
    exact Or.inl (Prod.mk.inj h).2.symm
  | ok _ => exact Or.inr (e.setModel_eq heffects ▸ h)

/-! ## A narrower model -/

/-- A subject may do what a row for it allows. -/
def allowedModel : Model := .build [.define "r" "r" "sub", .define "p" "p" "sub",
  .define "e" "e" EffectKind.allowOverride.text, .define "m" "m" "r.sub == p.sub"]

/-- All may do what no row denies; rows have one field more. -/
def deniedModel : Model := .build [.define "r" "r" "sub", .define "p" "p" "sub, eft",
  .define "e" "e" EffectKind.denyOverride.text, .define "m" "m" "r.sub == p.sub"]

/-- The program of both matchers. -/
def sameSubject : Program :=
  ⟨joinReferences "r.sub == p.sub", .binary .eq (.field "r_sub") (.field "p_sub")⟩

theorem ofSource_sameSubject (scope : Scope) :
    Program.ofSource scope (joinReferences "r.sub == p.sub") = .ok sameSubject := by
  have hexpr : Expr.ofText (joinReferences "r.sub == p.sub") = .ok sameSubject.expr := by cbv
  simp [Program.ofSource, hexpr, Scope.unknownCall?, Expr.calls, sameSubject]

/-- An enforcer with one row, which is stored. -/
def oneAllowed : Enforcer MemoryStore :=
  { model := allowedModel.modify "p" "p" (·.insertAll [["ann"]]), store := { lines := [["p", "ann"]] } }

set_option maxRecDepth 20000 in
theorem reachable_oneAllowed : Reachable Made (fun _ _ => True) oneAllowed := by
  let start : Enforcer MemoryStore := { model := allowedModel, store := {} }
  have h0 : Reachable Made (fun _ _ => True) start := .start ⟨allowedModel, {}, {}, ⟨_, rfl⟩, rfl⟩
  have hadd : (start.perform (.addRows "p" "p" [["ann"]])).2 = oneAllowed :=
    perform_addRows (h0.valid fun _ h => h) (Or.inl rfl) rfl rfl (persist_storeRows rfl) (by decide) rfl
  exact hadd ▸ h0.step (.addRows "p" "p" [["ann"]]) trivial

set_option maxRecDepth 20000 in
/-- The stored row does not fit the other model. -/
theorem setModel_deniedModel : ∃ err,
    oneAllowed.setModel deniedModel = (.error err, oneAllowed.withModel deniedModel) :=
  ⟨_, rfl⟩

/-! ## Top theorem (proved from the lemmas above) -/

/-- **A model that is not taken.**  Whatever the store holds or answers: a model with a definition of an
effect that is none is refused and changes nothing.  When any other model is refused, it is there all the
same, with the rows it came with and new managers for its role definitions, which hold no links, or those
of its own rows when links were built; functions, effector and settings stay, and nothing is left of the
old definitions, rows and links. -/
theorem setModel_error {e k : Enforcer σ} {model : Model} {err : Error}
    (h : e.setModel model = (.error err, k)) :
    (∃ fault, model.checkEffects = .error fault ∧ err = .model fault ∧ k = e) ∨
      (model.checkEffects = .ok () ∧ (k = { e.withModel model with store := k.store } ∨
        e.config.autoLinks = true ∧ k = { (e.withModel model).buildLinks.2 with store := k.store })) := by
  cases heffects : model.checkEffects with
  | error fault =>
    unfold setModel at h
    rw [heffects] at h
    obtain ⟨herr, hk⟩ := Prod.mk.inj h
    exact Or.inl ⟨fault, rfl, (Except.error.inj herr).symm, hk.symm⟩
  | ok _ =>
    rw [e.setModel_eq heffects] at h
    exact Or.inr ⟨rfl, finishLoad_error_eq (e := e.withModel model) h⟩

set_option maxRecDepth 20000 in
/-- The other model is there without rows, and no row of before is left. -/
theorem setModel_error_unfit : ∃ (k : Enforcer MemoryStore) (err : Error),
    oneAllowed.setModel deniedModel = (.error err, k) ∧ oneAllowed.model.rows "p" "p" = [["ann"]] ∧
      k.model.rows "p" "p" = [] ∧ deniedModel.checkEffects = .ok () ∧
      k = { oneAllowed.withModel deniedModel with store := k.store } := by
  obtain ⟨err, h⟩ := setModel_deniedModel
  have heffects : deniedModel.checkEffects = .ok () := rfl
  rcases setModel_error h with ⟨fault, hfault, -⟩ | ⟨hok, -⟩
  · simp [heffects] at hfault
  · exact ⟨_, err, h, rfl, rfl, hok, rfl⟩

set_option maxRecDepth 20000 in
/-- Decisions do not stay as they were: a request that was denied for want of a row is allowed under the model
that was refused, since it has no row that denies it. -/
theorem not_always_setModel_kept : ¬ ∀ (e k : Enforcer MemoryStore) (model : Model) (err : Error),
    Reachable Made (fun _ _ => True) e → model.Built → e.setModel model = (.error err, k) →
      ∀ ctx request, (k.enforce ctx request).1 = (e.enforce ctx request).1 := by
  intro hall
  obtain ⟨err, h⟩ := setModel_deniedModel
  have hbuilt : deniedModel.Built := ⟨_, rfl⟩
  have hvalid := reachable_oneAllowed.valid fun _ h => h
  have hbefore : (oneAllowed.enforce {} [.str "bob"]).1 = .ok (fullScan .allowOverride _
      (oneAllowed.matching (.make "r" "r" "sub") _ sameSubject [.str "bob"])) :=
    hvalid.enforce_eq rfl rfl rfl rfl rfl (EffectKind.ofText_text .allowOverride) rfl rfl
      (ofSource_sameSubject _) (by decide)
  have hafter : ((oneAllowed.withModel deniedModel).enforce {} [.str "bob"]).1 =
      .ok ⟨EffectKind.denyOverride.default, []⟩ :=
    (valid_setModel hvalid hbuilt h).enforce_eq_default rfl rfl rfl rfl rfl
      (EffectKind.ofText_text .denyOverride) rfl rfl (ofSource_sameSubject _) rfl rfl
  have hsame := hall _ _ _ _ reachable_oneAllowed hbuilt h {} [.str "bob"]
  rw [hbefore, hafter] at hsame
  exact absurd hsame (by decide)

end Enforcer

end AccessControl
