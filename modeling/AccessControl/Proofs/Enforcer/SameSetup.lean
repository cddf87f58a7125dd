import AccessControl.Enforcer.Loading
import AccessControl.Proofs.Enforcer.Steps
import AccessControl.Proofs.Model.Build
import AccessControl.Proofs.Roles.Follows
/-!
# What changes of rows leave alone

Changes of rows and loads change the store, the rows and the links, whether they succeed or not, and
nothing else: `SameSetup` says so.

    e.Steps sec name k → e.SameSetup k                                      (`sameSetup_steps`)
    e.buildLinks = (result, k) → e.SameSetup k                              (`sameSetup_buildLinks`)
    e.load = (result, k) → e.SameSetup k                                    (`sameSetup_load`)
-/

namespace AccessControl

namespace Enforcer

variable {σ : Type}

/-- From one enforcer to another that differs in its store, its rows and its links only. -/
structure SameSetup (e k : Enforcer σ) : Prop where
  functions : k.functions = e.functions
  effector : k.effector = e.effector
  config : k.config = e.config
  evaluation : k.evaluation = e.evaluation
  model : e.model.Evolves k.model
  managers : k.managers.mapValues RoleManager.clear = e.managers.mapValues RoleManager.clear
  sound : e.managers.AllSound → k.managers.AllSound

theorem SameSetup.refl (e : Enforcer σ) : e.SameSetup e := ⟨rfl, rfl, rfl, rfl, Model.Evolves.refl _, rfl, id⟩

theorem SameSetup.trans {e k l : Enforcer σ} (h : e.SameSetup k) (h' : k.SameSetup l) : e.SameSetup l where
  functions := h'.functions.trans h.functions
  effector := h'.effector.trans h.effector
  config := h'.config.trans h.config
  evaluation := h'.evaluation.trans h.evaluation
  model := h.model.trans h'.model
  managers := h'.managers.trans h.managers
  sound hs := h'.sound (h.sound hs)

theorem sameSetup_store (e : Enforcer σ) (store : σ) : e.SameSetup { e with store } :=
  ⟨rfl, rfl, rfl, rfl, Model.Evolves.refl _, rfl, id⟩

theorem sameSetup_model (e : Enforcer σ) {m : Model} (h : e.model.Evolves m) :
    e.SameSetup { e with model := m } :=
  ⟨rfl, rfl, rfl, rfl, h, rfl, id⟩

theorem sameSetup_manager {e : Enforcer σ} {name : String} {m k : RoleManager}
    (hm : e.managers.find name = some m) (hclear : k.clear = m.clear) (hsound : m.Sound → k.Sound) :
    e.SameSetup { e with managers := e.managers.put name k } :=
  ⟨rfl, rfl, rfl, rfl, Model.Evolves.refl _, Table.mapValues_put hm hclear,
    fun hs => hs.put name (hsound (hs name m hm))⟩

theorem sameSetup_steps [PolicyStore σ] {e k : Enforcer σ} {sec name : String} (h : e.Steps sec name k) :
    e.SameSetup k := by
  induction h with
  | refl => exact SameSetup.refl e
  | tail _ hstep ih =>
    refine ih.trans ?_
    cases hstep with
    | store op => exact sameSetup_store _ _
    | links _ hm hbatch =>
      exact sameSetup_manager hm (RoleManager.clear_applyBatch hbatch) fun hs => hs.applyBatch hbatch
    | rows hevolves => exact sameSetup_model _ hevolves
    | sort => exact sameSetup_model _ (Model.evolves_sortBySubject _)

/-! ## Links -/

theorem sameSetup_buildLinks {e k : Enforcer σ} {result : Except Error Unit}
    (h : e.buildLinks = (result, k)) : e.SameSetup k := by
  unfold buildLinks Model.addLinks at h
  have hclears := RoleManagers.clears_addRows (e.managers.mapValues RoleManager.clear)
    (e.model.definitions "g")
  have hsound := (RoleManagers.allSound_clear e.managers).addRows (e.model.definitions "g")
  rw [← (Prod.mk.inj h).2]
  exact ⟨rfl, rfl, rfl, rfl, Model.Evolves.refl _, hclears.trans (RoleManagers.clears_clear e.managers),
    fun _ => hsound⟩

theorem sameSetup_rebuildLinks {e k : Enforcer σ} {name : String} {result : Except Error Unit}
    (h : e.rebuildLinks name = (result, k)) : e.SameSetup k := by
  unfold rebuildLinks at h
  split at h
  · rw [← (Prod.mk.inj h).2]
    exact SameSetup.refl e
  · next m hm =>
    rcases hb : m.clear.applyRows .add (e.model.rows "g" name) with ⟨r, l⟩
    rw [hb] at h
    rw [← (Prod.mk.inj h).2]
    have hclear : l.clear = m.clear.clear := RoleManager.clear_applyRows hb
    exact sameSetup_manager hm hclear fun _ => m.sound_clear.applyRows hb

/-- A new manager takes the rows of its definition, if there are any. -/
theorem setManager_eq {e : Enforcer σ} {name : String} {m l : RoleManager}
    {result : Except Error Unit}
    (hrun : m.clear.applyRows .add (e.model.rows "g" name) = (result, l)) :
    e.setManager name m =
      (result, { e.dropPrograms with managers := (e.managers.put name m).put name l }) := by
  unfold setManager rebuildLinks dropPrograms
  dsimp only
  rw [Table.find_put_self]
  dsimp only
  rw [hrun]

/-! ## Loads -/

theorem evolves_sorted (m : Model) : m.Evolves m.sorted := by
  unfold Model.sorted
  dsimp only
  split
  · exact m.evolves_sortByPriority.trans (Model.evolves_sortBySubject _)
  · exact m.evolves_sortByPriority

theorem sameSetup_install {e k : Enforcer σ} {m : Model} {result : Except Error Unit}
    (hm : e.model.Evolves m) (h : e.install m = (result, k)) : e.SameSetup k := by
  have hmodel : e.SameSetup { e with model := m.sorted } := e.sameSetup_model (hm.trans (evolves_sorted m))
  unfold install at h
  dsimp only at h
  split at h
  · split at h
    · next hlinks =>
      rw [← (Prod.mk.inj h).2]
      exact hmodel.trans (sameSetup_buildLinks hlinks)
    · next err l hlinks =>
      have hl := hmodel.trans (sameSetup_buildLinks hlinks)
      have hback : SameSetup { l with model := e.model } k :=
        (Prod.mk.inj h).2 ▸ sameSetup_buildLinks rfl
      exact ⟨hback.functions.trans hl.functions, hback.effector.trans hl.effector,
        hback.config.trans hl.config, hback.evaluation.trans hl.evaluation, hback.model,
        hback.managers.trans hl.managers, fun hs => hback.sound (hl.sound hs)⟩
  · rw [← (Prod.mk.inj h).2]
    exact hmodel

theorem sameSetup_finishLoad {e k : Enforcer σ} {loaded : Except Error Unit × Model × σ}
    {result : Except Error Unit} (hm : e.model.Evolves loaded.2.1)
    (h : e.finishLoad loaded = (result, k)) : e.SameSetup k := by
  match loaded, h with
  | (.ok (), m, store), h => exact (e.sameSetup_store store).trans (sameSetup_install hm h)
  | (.error err, m, store), h =>
    rw [← (Prod.mk.inj h).2]
    exact e.sameSetup_store store

/-! ## Every operation -/

variable [PolicyStore σ]

theorem sameSetup_clear {e k : Enforcer σ} {result : Except Error Unit} (h : e.clear = (result, k)) :
    e.SameSetup k := by
  unfold clear at h
  split at h
  · next hpersist =>
    obtain ⟨store, rfl⟩ := persist_eq hpersist
    rw [← (Prod.mk.inj h).2]
    exact e.sameSetup_store store
  · next s hpersist =>
    obtain ⟨store, rfl⟩ := persist_eq hpersist
    rw [← (Prod.mk.inj h).2]
    exact (e.sameSetup_store store).trans ⟨rfl, rfl, rfl, rfl, e.model.evolves_clear,
      RoleManagers.clears_clear e.managers, fun _ => RoleManagers.allSound_clear e.managers⟩

theorem evolves_load (store : σ) (filtered : Bool) (reading : Reading) (m : Model) :
    m.Evolves (PolicyStore.finishLoad store filtered reading m).2.1 := by
  have hlines := m.evolves_addLines reading.lines
  unfold PolicyStore.finishLoad
  split
  · next heq => rwa [heq] at hlines
  · next heq =>
    rw [heq] at hlines
    split <;> exact hlines

theorem sameSetup_load {e k : Enforcer σ} {result : Except Error Unit} (h : e.load = (result, k)) :
    e.SameSetup k :=
  sameSetup_finishLoad (e.model.evolves_clear.trans (evolves_load _ _ _ _)) h

theorem sameSetup_loadFiltered {e k : Enforcer σ} {filter : Filter} {result : Except Error Unit}
    (h : e.loadFiltered filter = (result, k)) : e.SameSetup k :=
  sameSetup_finishLoad (e.model.evolves_clear.trans (evolves_load _ _ _ _)) h

theorem save_eq {e k : Enforcer σ} {result : Except Error Unit} (h : e.save = (result, k)) :
    ∃ store, k = { e with store } := by
  unfold save at h
  split at h
  · exact ⟨e.store, (Prod.mk.inj h).2.symm⟩
  · split at h <;> exact ⟨_, (Prod.mk.inj h).2.symm⟩

theorem sameSetup_save {e k : Enforcer σ} {result : Except Error Unit} (h : e.save = (result, k)) :
    e.SameSetup k := by
  obtain ⟨store, rfl⟩ := save_eq h
  exact e.sameSetup_store store

end Enforcer

end AccessControl
