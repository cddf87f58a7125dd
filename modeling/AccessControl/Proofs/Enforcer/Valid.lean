import AccessControl.Proofs.Enforcer.FullScan
import AccessControl.Proofs.Enforcer.Runs
/-!
# What holds in every state of an enforcer

In every state the model is well formed, its effects are known, the managers are sound, and the
compiled programs are what compiling from scratch gives for what may be called.  Changes of rows keep
all of it because of what they leave alone; the few calls that change what may be called drop the
programs.

    e.Valid → e.SameSetup k → k.Valid                                  (`SameSetup.valid`)
    e.Reachable Made allowed → e.Valid                                 (`Reachable.valid`)
-/

namespace AccessControl

namespace Enforcer

variable {σ : Type}

/-- What no call breaks. -/
structure Valid (e : Enforcer σ) : Prop where
  model : e.model.WellFormed
  effects : e.model.checkEffects = .ok ()
  managers : e.managers.AllSound
  programs : e.evaluation.programs.FromScratch e.scope

theorem SameSetup.keys {e k : Enforcer σ} (h : e.SameSetup k) : k.managers.keys = e.managers.keys := by
  have hkeys := congrArg Table.keys h.managers
  rwa [Table.keys_mapValues, Table.keys_mapValues] at hkeys

/-- A manager has the settings of the one that was there. -/
theorem SameSetup.find_manager {e k : Enforcer σ} (h : e.SameSetup k) {name : String} {m : RoleManager}
    (hm : k.managers.find name = some m) :
    ∃ old, e.managers.find name = some old ∧ m.clear = old.clear := by
  have hfind := congrArg (fun t : RoleManagers => t.find name) h.managers
  rw [Table.find_mapValues, Table.find_mapValues, hm] at hfind
  obtain ⟨old, hold, heq⟩ := Option.map_eq_some_iff.1 hfind.symm
  exact ⟨old, hold, heq.symm⟩

theorem SameSetup.isCallable {e k : Enforcer σ} (h : e.SameSetup k) (name : String) :
    k.scope.isCallable name = e.scope.isCallable name := by
  have hmanagers : k.managers.contains name = e.managers.contains name := by
    rw [Bool.eq_iff_iff, Table.contains_iff, Table.contains_iff, h.keys]
  unfold Scope.isCallable scope
  rw [hmanagers, h.functions]

theorem SameSetup.valid {e k : Enforcer σ} (h : e.SameSetup k) (he : e.Valid) : k.Valid where
  model := h.model.wellFormed he.model
  effects := Model.checkEffects_of_bare h.model.bare he.effects
  managers := h.sound he.managers
  programs := by
    rw [h.evaluation]
    exact he.programs.congr h.isCallable

/-! ## New managers -/

/-- The manager of a definition that had none. -/
def freshManager (config : EnforcerConfig) : RoleManager :=
  { maxLevel := config.maxLevel, rejectCycles := config.rejectCycles }

/-- Gives a definition a manager if it has none. -/
def addManager (fresh : RoleManager) (managers : RoleManagers) (d : Definition) : RoleManagers :=
  if managers.contains d.key then managers else managers.put d.key fresh

theorem find_addManager {fresh : RoleManager} {managers : RoleManagers} {d : Definition}
    {name : String} {m : RoleManager} (h : (addManager fresh managers d).find name = some m) :
    managers.find name = some m ∨ m = fresh := by
  unfold addManager at h
  split at h
  · exact Or.inl h
  · rw [Table.find_put] at h
    split at h
    · exact Or.inr (Option.some.inj h).symm
    · exact Or.inl h

/-- Every manager is one that was there or a new one. -/
theorem find_foldl_addManager {fresh : RoleManager} {managers : RoleManagers}
    {defs : List Definition} {name : String} {m : RoleManager}
    (h : (defs.foldl (addManager fresh) managers).find name = some m) :
    managers.find name = some m ∨ m = fresh := by
  induction defs generalizing managers with
  | nil => exact Or.inl h
  | cons d rest ih =>
    rcases ih h with hold | hfresh
    · exact find_addManager hold
    · exact Or.inr hfresh

/-- Managers that are there stay, and every definition has one. -/
theorem contains_foldl_addManager (fresh : RoleManager) (managers : RoleManagers)
    (defs : List Definition) :
    (∀ name, managers.contains name = true → (defs.foldl (addManager fresh) managers).contains name) ∧
      ∀ d ∈ defs, (defs.foldl (addManager fresh) managers).contains d.key := by
  induction defs generalizing managers with
  | nil => simp
  | cons d rest ih =>
    obtain ⟨hstay, hhave⟩ := ih (addManager fresh managers d)
    have hold : ∀ name, managers.contains name = true → (addManager fresh managers d).contains name := by
      intro name hname
      unfold addManager
      split
      · exact hname
      · rw [Table.contains_iff, Table.keys_put, mem_addNew]
        exact Or.inl ((Table.contains_iff _ _).1 hname)
    have hnew : (addManager fresh managers d).contains d.key := by
      unfold addManager
      split
      · assumption
      · rw [Table.contains_iff, Table.keys_put, mem_addNew]
        exact Or.inr rfl
    refine ⟨fun name hname => hstay name (hold name hname), fun k hk => ?_⟩
    rcases List.mem_cons.1 hk with rfl | hk
    · exact hstay k.key hnew
    · exact hhave k hk

theorem allSound_initManagers {e : Enforcer σ} (h : e.managers.AllSound) :
    e.initManagers.managers.AllSound := by
  intro name m hm
  rcases find_foldl_addManager hm with hold | rfl
  · exact h name m hold
  · exact (freshManager e.config).sound_clear

/-! ## Calls that change what may be called -/

theorem valid_setManager {e k : Enforcer σ} (he : e.Valid) {name : String} {m : RoleManager}
    {result : Except Error Unit} (h : e.setManager name m = (result, k)) : k.Valid := by
  have hsetup := sameSetup_rebuildLinks h
  refine ⟨hsetup.model.wellFormed he.model, Model.checkEffects_of_bare hsetup.model.bare he.effects, ?_,
    ?_⟩
  · rcases hb : m.clear.applyRows .add (e.model.rows "g" name) with ⟨r, l⟩
    rw [setManager_eq hb] at h
    rw [← (Prod.mk.inj h).2]
    -- the rebuild makes the new manager sound whatever it was
    intro other x hx
    dsimp only at hx
    rw [Table.find_put] at hx
    split at hx
    · rw [← Option.some.inj hx]
      exact m.sound_clear.applyRows hb
    · next hne =>
      rw [Table.find_put_of_ne _ _ hne] at hx
      exact he.managers other x hx
  · rw [hsetup.evaluation]
    exact ProgramCache.fromScratch_empty _

theorem valid_changeManager {e k : Enforcer σ} (he : e.Valid) {name : String}
    {f : RoleManager → RoleManager} {result : Except Error Unit}
    (h : e.changeManager name f = (result, k)) : k.Valid := by
  unfold changeManager at h
  split at h
  · rw [← (Prod.mk.inj h).2]
    exact he
  · next m _ =>
    have hset : e.setManager name (f m) = (result, k) := h
    exact valid_setManager he hset

/-- A decision adds to the evaluation only, and keeps the programs right. -/
theorem enforce_frame (e : Enforcer σ) (ctx : Context) (request : List Value) :
    ∃ evaluation, (e.enforce ctx request).2 = { e with evaluation } ∧
      (e.evaluation.programs.FromScratch e.scope → evaluation.programs.FromScratch e.scope) := by
  unfold enforce
  split
  · split
    · exact ⟨e.evaluation, rfl, id⟩
    · next q _ =>
      have hcompile : EvalM.Gives e.scope (EvalM.compile e.scope q.matcher) _ :=
        EvalM.gives_compile q.matcher
      split
      · next hrun =>
        refine ⟨_, rfl, fun hright => ?_⟩
        have hnext := (hcompile e.evaluation hright).2
        rwa [hrun] at hnext
      · next program state hrun =>
        refine ⟨(q.decide program e.scope e.effector state).2, rfl, fun hright => ?_⟩
        have hnext := (hcompile e.evaluation hright).2
        rw [hrun] at hnext
        exact q.fromScratch_decide program hnext e.effector
  · exact ⟨e.evaluation, rfl, id⟩

/-! ## Every state -/

theorem valid_start {model : Model} (hmodel : model.WellFormed) (heffects : model.checkEffects = .ok ())
    (e : Enforcer σ) :
    ({ e with model, managers := [] }.initManagers.dropPrograms : Enforcer σ).Valid where
  model := hmodel
  effects := heffects
  managers := allSound_initManagers fun name m hm => by simp at hm
  programs := ProgramCache.fromScratch_empty _

variable [PolicyStore σ]

/-- A new enforcer went through a load. -/
theorem make_ok {model : Model} {store : σ} {config : EnforcerConfig} {e : Enforcer σ}
    (h : make model store config = .ok e) : model.checkEffects = .ok () ∧
      ({ model, store, config } : Enforcer σ).initManagers.load = (.ok (), e) := by
  unfold make at h
  split at h
  · simp at h
  · next heffects =>
    split at h
    · next hload =>
      rw [← Except.ok.inj h]
      exact ⟨heffects, hload⟩
    · simp at h

theorem make_of_load {model : Model} {store : σ} {config : EnforcerConfig} {e : Enforcer σ}
    (heffects : model.checkEffects = .ok ())
    (hload : ({ model, store, config } : Enforcer σ).initManagers.load = (.ok (), e)) :
    make model store config = .ok e := by
  unfold make
  rw [heffects]
  dsimp only
  rw [hload]

theorem Made.valid {e : Enforcer σ} (h : e.Made) : e.Valid := by
  obtain ⟨model, store, config, hbuilt, hmake⟩ := h
  obtain ⟨heffects, hload⟩ := make_ok hmake
  exact (sameSetup_load hload).valid
    (valid_start hbuilt.wellFormed heffects ({ model, store, config } : Enforcer σ))

theorem valid_setModel {e k : Enforcer σ} (he : e.Valid) {model : Model} (hbuilt : model.Built)
    {result : Except Error Unit} (h : e.setModel model = (result, k)) : k.Valid := by
  unfold setModel at h
  split at h
  · rw [← (Prod.mk.inj h).2]
    exact he
  · next heffects => exact (sameSetup_load h).valid (valid_start hbuilt.wellFormed heffects e)

theorem valid_perform {e : Enforcer σ} (he : e.Valid) (c : Call σ) : (e.perform c).2.Valid := by
  cases hrows : c.onRows with
  | true => exact (e.sameSetup_perform hrows).valid he
  | false =>
    cases c with
    | enable | enableLog | enableAutoSave | enableAutoLinks | setEffector =>
      exact ⟨he.model, he.effects, he.managers, he.programs⟩
    | addFunction => exact ⟨he.model, he.effects, he.managers, ProgramCache.fromScratch_empty _⟩
    | removeFunction name =>
      unfold perform removeFunction
      dsimp only
      split
      · exact ⟨he.model, he.effects, he.managers, ProgramCache.fromScratch_empty _⟩
      · exact he
    | setModel model built => exact valid_setModel he built rfl
    | setManager => exact valid_setManager he rfl
    | setNameMatch => exact valid_changeManager he rfl
    | setDomainMatch => exact valid_changeManager he rfl
    | enforce ctx request =>
      obtain ⟨evaluation, heq, hright⟩ := e.enforce_frame ctx request
      have hk : (e.perform (.enforce ctx request)).2 = { e with evaluation } := heq
      rw [hk]
      exact ⟨he.model, he.effects, he.managers, hright he.programs⟩
    | takeTrace => exact ⟨he.model, he.effects, he.managers, he.programs⟩
    | _ => simp [Call.onRows] at hrows

/-- Every state is valid. -/
theorem Reachable.valid {start : Enforcer σ → Prop} {allowed : Enforcer σ → Call σ → Prop}
    (hstart : ∀ e, start e → e.Made) {e : Enforcer σ} (h : Reachable start allowed e) : e.Valid := by
  induction h with
  | start h => exact (hstart _ h).valid
  | step c _ _ ih => exact valid_perform ih c

end Enforcer

end AccessControl
