import AccessControl.Proofs.Enforcer.Agreement
import AccessControl.Proofs.Enforcer.Consistent
/-!
# Runs that stay consistent

A run in which links are built automatically, other models and managers are taken only when they fit, and
role definitions have at most three fields keeps the enforcer consistent: no call needs the links to be
wrong for a while, and none that fails leaves them wrong.

    e.Consistent → e.addRows sec name rows = (result, k) → k.Consistent
                                                                       (`Consistent.addRows`)
    e.finishLoad loaded = (.error err, k) → the rows are those of e, and the links those of e or of a
      rebuild of e                                                     (`finishLoad_error`)
    e.Consistent → (e.perform c).2.Consistent                          (`Consistent.perform`)
    every reachable state is consistent                                (`Reachable.consistent`)
-/

namespace AccessControl

namespace Enforcer

variable {σ : Type} {sec name : String}

/-- Role definitions have at most three fields. -/
def NarrowRoles (e : Enforcer σ) : Prop :=
  ∀ name d, e.model.find? "g" name = some d → d.fields.length ≤ 3

theorem Consistent.of_eq {e k : Enforcer σ} (h : e.Consistent) (hmodel : k.model = e.model)
    (hmanagers : k.managers = e.managers) : k.Consistent where
  managed := by
    unfold Managed
    rw [hmodel, hmanagers]
    exact h.managed
  follows := by
    rw [hmodel, hmanagers]
    exact h.follows

theorem Consistent.tracks {e : Enforcer σ} (h : e.Consistent) (hvalid : e.Valid) {d : Definition}
    (hd : e.model.find? "g" name = some d) : ∃ settings, e.Tracks name settings d.rows := by
  have hkey := h.managed name ((hvalid.model.toNamed.mem_roleNames name).2 ⟨d, hd⟩)
  obtain ⟨m, hm⟩ := Table.exists_find hkey
  have hfollows := h.follows name m hm
  rw [Model.rows_of_find? hd] at hfollows
  exact ⟨m.clear, m, hm, rfl, hvalid.managers name m hm, hfollows⟩

/-! ## Operations on rows -/

section

variable [PolicyStore σ] {e k : Enforcer σ} (h : e.Consistent) (hvalid : e.Valid)

include h hvalid

/-- Steps of a definition after which its manager follows its rows. -/
theorem Consistent.steps (hsteps : e.Steps sec name k)
    (hnone : e.model.find? sec name = none → k = e)
    (htracked : sec = "g" → ∀ d settings, e.model.find? "g" name = some d →
      e.Tracks name settings d.rows → k.Tracked name settings) : k.Consistent where
  managed := (sameSetup_steps hsteps).managed h.managed
  follows other m hm := by
    by_cases hmine : sec = "g" ∧ name = other
    · obtain ⟨rfl, rfl⟩ := hmine
      cases hd : e.model.find? "g" name with
      | none =>
        rw [hnone hd] at hm ⊢
        exact h.follows name m hm
      | some d =>
        obtain ⟨settings, htracks⟩ := h.tracks hvalid hd
        obtain ⟨x, hx, l, hl, -, -, hfollows⟩ := htracked rfl d settings hd htracks
        rwa [Model.rows_of_find? hx, Option.some.inj (hm.symm.trans hl)]
    · obtain ⟨hmodel, hmanagers⟩ := steps_frame hsteps hmine
      rw [hmanagers] at hm
      rw [Model.rows, hmodel]
      exact h.follows other m hm

variable (hauto : e.config.autoLinks = true)
  (hnarrow : ∀ d, e.model.find? "g" name = some d → d.fields.length ≤ 3)

include hauto hnarrow

theorem Consistent.addRows {rows : List Row} {result : Except Error Bool}
    (hrun : e.addRows sec name rows = (result, k)) : k.Consistent := by
  refine h.steps hvalid (steps_addRows hrun) (fun hnone => ?_) fun hsec d settings hd htracks => ?_
  · rw [Enforcer.addRows, Model.find, hnone] at hrun
    exact (Prod.mk.inj hrun).2.symm
  · subst hsec
    exact tracked_addRows hd (hvalid.model.tidy _ _ d hd) (hnarrow d hd) hauto htracks hrun

theorem Consistent.removeRows {rows : List Row} {result : Except Error Bool}
    (hrun : e.removeRows sec name rows = (result, k)) : k.Consistent := by
  refine h.steps hvalid (steps_removeRows hrun) (fun hnone => ?_) fun hsec d settings hd htracks => ?_
  · rw [Enforcer.removeRows, Model.find, hnone] at hrun
    exact (Prod.mk.inj hrun).2.symm
  · subst hsec
    exact tracked_removeRows hd (hvalid.model.tidy _ _ d hd) (hnarrow d hd) hauto htracks hrun

theorem Consistent.removeFiltered {index : Nat} {values : List String} {result : Except Error Bool}
    (hrun : e.removeFiltered sec name index values = (result, k)) : k.Consistent := by
  refine h.steps hvalid (steps_removeFiltered hrun) (fun hnone => ?_)
    fun hsec d settings hd htracks => ?_
  · rw [Enforcer.removeFiltered, Model.find, hnone] at hrun
    exact (Prod.mk.inj hrun).2.symm
  · subst hsec
    exact tracked_removeFiltered hd (hvalid.model.tidy _ _ d hd) (hnarrow d hd) hauto htracks hrun

/-- An update that goes through drops one of two rows that are the same, with the link of both. -/
theorem Consistent.updateRow {old new : Row} {result : Except Error Bool}
    (hdistinct : result = .ok true → ∀ d, e.model.find? "g" name = some d → d.rows.Nodup)
    (hrun : e.updateRow sec name old new = (result, k)) : k.Consistent := by
  refine h.steps hvalid (steps_updateRow hrun) (fun hnone => ?_) fun hsec d settings hd htracks => ?_
  · rw [Enforcer.updateRow, Model.find, hnone] at hrun
    exact (Prod.mk.inj hrun).2.symm
  · subst hsec
    exact tracked_updateRow hd (hvalid.model.tidy _ _ d hd) (hnarrow d hd) hauto htracks
      (fun hok => hdistinct hok d hd) hrun

end

theorem Consistent.clear [PolicyStore σ] {e k : Enforcer σ} (h : e.Consistent)
    {result : Except Error Unit} (hrun : e.clear = (result, k)) : k.Consistent := by
  have hsetup := sameSetup_clear hrun
  unfold Enforcer.clear at hrun
  split at hrun
  · next hpersist =>
    obtain ⟨store, rfl⟩ := persist_eq hpersist
    rw [← (Prod.mk.inj hrun).2]
    exact h.of_eq rfl rfl
  · next hpersist =>
    obtain ⟨store, rfl⟩ := persist_eq hpersist
    obtain ⟨-, rfl⟩ := Prod.mk.inj hrun
    refine ⟨hsetup.managed h.managed, fun other m hm => ?_⟩
    dsimp only at hm
    rw [Table.find_mapValues] at hm
    obtain ⟨old, -, rfl⟩ := Option.map_eq_some_iff.1 hm
    have hrows : e.model.clear.rows "g" other = [] := by
      unfold Model.rows
      rw [Model.find?_clear _ (Or.inr rfl)]
      cases e.model.find? "g" other <;> rfl
    dsimp only
    rw [hrows]
    exact old.follows_clear

/-! ## Rebuilds and loads -/

theorem Consistent.buildLinks {e k : Enforcer σ} (h : e.Consistent) (hvalid : e.Valid)
    {result : Except Error Unit} (hrun : e.buildLinks = (result, k)) : k.Consistent := by
  have hk : k = e.buildLinks.2 := by rw [hrun]
  refine ⟨(sameSetup_buildLinks hrun).managed h.managed, ?_⟩
  rw [hk]
  exact h.follows_buildLinks hvalid

theorem consistent_install_ok {e k : Enforcer σ} {m : Model} (hnamed : m.Named)
    (hbare : m.bare = e.model.bare) (hmanaged : e.Managed) (hauto : e.config.autoLinks = true)
    (hrun : e.install m = (.ok (), k)) : k.Consistent := by
  have hsorted := (evolves_sorted m).bare
  unfold install at hrun
  rw [if_pos hauto] at hrun
  split at hrun
  · next hlinks =>
    rw [← (Prod.mk.inj hrun).2]
    refine consistent_buildLinks (e := { e with model := m.sorted }) (hnamed.of_bare hsorted) ?_ hlinks
    unfold Managed
    rw [Model.roleNames_of_bare (hsorted.trans hbare)]
    exact hmanaged
  · simp at hrun

theorem finishLoad_error {e k : Enforcer σ} (hauto : e.config.autoLinks = true)
    {loaded : Except Error Unit × Model × σ} {err : Error} (h : e.finishLoad loaded = (.error err, k)) :
    k.model = e.model ∧ (k.managers = e.managers ∨ k.managers = e.buildLinks.2.managers) := by
  match loaded, h with
  | (.ok (), m, store), h =>
    obtain ⟨hmodel, hmanagers⟩ := managers_install_error (e := { e with store }) hauto h
    exact ⟨hmodel, Or.inr hmanagers⟩
  | (.error _, m, store), h =>
    rw [← (Prod.mk.inj h).2]
    exact ⟨rfl, Or.inl rfl⟩

theorem Consistent.finishLoad {e k : Enforcer σ} (h : e.Consistent) (hvalid : e.Valid)
    (hauto : e.config.autoLinks = true) {loaded : Except Error Unit × Model × σ}
    (hm : e.model.Evolves loaded.2.1) {result : Except Error Unit}
    (hrun : e.finishLoad loaded = (result, k)) : k.Consistent := by
  match result, hrun with
  | .ok (), hrun =>
    obtain ⟨store, hinstall⟩ := finishLoad_ok hrun
    exact consistent_install_ok (e := { e with store }) (hvalid.model.toNamed.of_bare hm.bare) hm.bare
      h.managed hauto hinstall
  | .error err, hrun =>
    obtain ⟨hmodel, hsame | hbuilt⟩ := finishLoad_error hauto hrun
    · exact h.of_eq hmodel hsame
    · exact (h.buildLinks hvalid rfl).of_eq hmodel hbuilt

/-! ## Other models and managers -/

theorem Consistent.setManager {e k : Enforcer σ} (h : e.Consistent) {m : RoleManager}
    (hrun : e.setManager name m = (.ok (), k)) : k.Consistent := by
  refine ⟨managed_setManager h.managed hrun, fun other l hl => ?_⟩
  obtain ⟨hmodel, -, hother⟩ := setManager_frame hrun
  rw [hmodel]
  by_cases heq : other = name
  · subst heq
    rcases hrows : m.clear.applyRows .add (e.model.rows "g" other) with ⟨result, x⟩
    rw [setManager_eq hrows] at hrun
    obtain ⟨rfl, rfl⟩ := Prod.mk.inj hrun
    obtain rfl : x = l := Option.some.inj ((Table.find_put_self _ _ _).symm.trans hl)
    exact m.follows_clear.add m.sound_clear hrows
  · rw [hother other heq] at hl
    exact h.follows other l hl

theorem Consistent.changeManager {e k : Enforcer σ} (h : e.Consistent) (hvalid : e.Valid)
    {f : RoleManager → RoleManager} (hf : ∀ m, (f m).rejectCycles = m.rejectCycles)
    {result : Except Error Unit} (hrun : e.changeManager name f = (result, k)) : k.Consistent := by
  unfold Enforcer.changeManager at hrun
  split at hrun
  · rw [← (Prod.mk.inj hrun).2]
    exact h
  · next m hm =>
    have hset : e.setManager name (f m) = (result, k) := hrun
    obtain ⟨l, hl⟩ := setManager_ok (h.follows name m hm) (hvalid.managers name m hm) (hf m)
    obtain ⟨rfl, rfl⟩ := Prod.mk.inj (hset.symm.trans hl)
    exact h.setManager hset

variable [PolicyStore σ]

/-- A load that goes through makes any enforcer consistent. -/
theorem consistent_load_ok {e k : Enforcer σ} (hvalid : e.Valid) (hauto : e.config.autoLinks = true)
    (hmanaged : e.Managed) (hrun : e.load = (.ok (), k)) : k.Consistent := by
  have hlines : e.model.Evolves (PolicyStore.load e.store e.model.clear).2.1 :=
    e.model.evolves_clear.trans (evolves_load _ _ _ _)
  obtain ⟨store, hinstall⟩ := finishLoad_ok hrun
  exact consistent_install_ok (e := { e with store }) (hvalid.model.toNamed.of_bare hlines.bare)
    hlines.bare hmanaged hauto hinstall

theorem Made.consistent {e : Enforcer σ} (h : e.Made) (hauto : e.config.autoLinks = true) :
    e.Consistent := by
  obtain ⟨model, store, config, hbuilt, hmake⟩ := h
  obtain ⟨heffects, hload⟩ := make_ok hmake
  have hconfig : config.autoLinks = true := by
    have heq := (sameSetup_load hload).config
    rwa [heq] at hauto
  exact consistent_load_ok
    (valid_start hbuilt.wellFormed heffects ({ model, store, config } : Enforcer σ)) hconfig
    (managed_initManagers ({ model, store, config } : Enforcer σ)) hload

theorem consistent_setModel {e k : Enforcer σ} (hauto : e.config.autoLinks = true) {model : Model}
    (hbuilt : model.Built) (hrun : e.setModel model = (.ok (), k)) : k.Consistent := by
  unfold Enforcer.setModel at hrun
  split at hrun
  · simp at hrun
  · next heffects =>
    exact consistent_load_ok (valid_start hbuilt.wellFormed heffects e) hauto
      (managed_initManagers { e with model, managers := [] }) hrun

/-! ## Every state -/

theorem Consistent.perform {e : Enforcer σ} (h : e.Consistent) (hstep : e.InStep name)
    (hnarrow : e.NarrowRoles) (c : Call σ) (hc : c.Admitted e) : (e.perform c).2.Consistent := by
  have hvalid := hstep.valid
  have hauto := hstep.auto
  cases c with
  | addRows => exact h.addRows hvalid hauto (hnarrow _) rfl
  | removeRows => exact h.removeRows hvalid hauto (hnarrow _) rfl
  | removeFiltered => exact h.removeFiltered hvalid hauto (hnarrow _) rfl
  | updateRow =>
    exact h.updateRow hvalid hauto (hnarrow _)
      (fun _ d hd => hstep.distinct "g" (Or.inr rfl) _ d hd) rfl
  | clear => exact h.clear rfl
  | buildLinks => exact h.buildLinks hvalid rfl
  | load | loadFiltered =>
    exact h.finishLoad hvalid hauto (e.model.evolves_clear.trans (evolves_load _ _ _ _)) rfl
  | setModel model built => exact consistent_setModel hauto built (Prod.ext hc rfl)
  | setManager other m => exact h.setManager (Prod.ext hc rfl)
  | setNameMatch other g =>
    exact h.changeManager hvalid (f := fun m => { m with nameMatch := some g }) (fun _ => rfl) rfl
  | setDomainMatch other g =>
    exact h.changeManager hvalid (f := fun m => { m with domainMatch := some g }) (fun _ => rfl) rfl
  | enforce ctx request =>
    obtain ⟨evaluation, heq, -⟩ := e.enforce_frame ctx request
    have hk : (e.perform (.enforce ctx request)).2 = { e with evaluation } := heq
    rw [hk]
    exact h.of_eq rfl rfl
  | removeFunction fname =>
    unfold Enforcer.perform Enforcer.removeFunction
    dsimp only
    split <;> exact h.of_eq rfl rfl
  | save =>
    obtain ⟨store, heq⟩ := save_eq (e := e) rfl
    have hk : (e.perform Call.save).2 = { e with store } := heq
    rw [hk]
    exact h.of_eq rfl rfl
  | _ => exact h.of_eq rfl rfl

/-- A call that may be made while role definitions have at most three fields. -/
def Call.AdmittedNarrow (e : Enforcer σ) (c : Call σ) : Prop := c.Admitted e ∧ e.NarrowRoles

/-- Narrow definitions block no rebuild. -/
theorem Call.AdmittedNarrow.harmless {e : Enforcer σ} {c : Call σ} (h : c.AdmittedNarrow e) (name : String) :
    c.Harmless name e :=
  ⟨h.1, fun _ _ other _ d _ hd _ hwide => absurd (h.2 other d hd) (Nat.not_le_of_lt hwide)⟩

theorem Reachable.inStep_of_narrow {e : Enforcer σ} (h : Reachable Linking (fun e c => c.AdmittedNarrow e) e)
    (name : String) : e.InStep name := by
  induction h with
  | start h => exact h.1.inStep h.2 name
  | step c _ hc ih => exact ih.perform c hc.1 (hc.harmless name).2

/-- In every state of a run in which links are built automatically, other models and managers are taken
only when they fit, and role definitions have at most three fields, the links of all managers are those of
the rows. -/
theorem Reachable.consistent {e : Enforcer σ} (h : Reachable Linking (fun e c => c.AdmittedNarrow e) e) :
    e.Consistent := by
  induction h with
  | start h => exact h.1.consistent h.2
  | step c h hc ih => exact ih.perform (h.inStep_of_narrow "g") hc.2 c hc.1

end Enforcer

end AccessControl
