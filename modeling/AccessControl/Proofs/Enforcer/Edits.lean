import AccessControl.Proofs.Enforcer.Mirrored
import AccessControl.Proofs.Model.Priority
import AccessControl.Proofs.Model.Runs
/-!
# What calls make of the model

As long as no other model is taken, a call leaves the model, changes the rows of one definition and sorts
policy rows where the default effect goes by subjects, drops all rows, or loads rows.  One end is different:
when rows were dropped by their fields and their links cannot be dropped, policy rows are not sorted.  What
holds of a new enforcer and is kept by all of these holds of every model of a run.

    c.keepsDefinitions → e.model.Edits (e.perform c).2.model           (`edits_perform`)
    what loads give and edits keep holds of the model in every state   (`Reachable.model_induction`)
-/

namespace AccessControl

namespace Model

/-- Whether an operation is a change of rows that calls make. -/
def Operation.onRows : Operation → Bool
  | .addMany .. | .removeMany .. | .replace .. | .removeFiltered .. => true
  | _ => false

theorem evolves_apply (m : Model) {operation : Operation} (h : operation.onRows = true) :
    m.Evolves (m.apply operation) := by
  cases operation with
  | addMany => exact outcome_of (Evolves.refl m) fun _ _ h => evolves_addMany h
  | removeMany => exact outcome_of (Evolves.refl m) fun _ _ h => evolves_removeMany h
  | replace => exact outcome_of (Evolves.refl m) fun _ _ h => evolves_replace h
  | removeFiltered => exact outcome_of (Evolves.refl m) fun _ _ h => evolves_removeFiltered h
  | _ => simp [Operation.onRows] at h

/-- The model with its policy rows sorted by subjects, where the default effect goes by them. -/
def resorted (m : Model) : Model := if Enforcer.ordersBySubject m then m.sortBySubject else m

theorem evolves_resorted (m : Model) : m.Evolves m.resorted := by
  unfold resorted
  split
  · exact m.evolves_sortBySubject
  · exact Evolves.refl m

/-- What a call makes of a model. -/
inductive Edits (m : Model) : Model → Prop where
  | same : Edits m m
  | changed {operation : Operation} (h : operation.onRows = true) : Edits m (m.apply operation).resorted
  /-- A role definition has a row without a link, and rows of it were dropped. -/
  | unlinked {name : String} {d : Definition} {row : Row} (hd : m.find? "g" name = some d)
      (hrow : row ∈ d.rows) (hlink : linkOf? row = none) (index : Nat) (values : List String) :
      Edits m (m.apply (.removeFiltered "g" name index values))
  | cleared : Edits m m.clear
  | loaded {k : Model} {lines : List Line} (h : m.clear.addLines lines = (.ok (), k)) : Edits m k.sorted

theorem Edits.evolves {m k : Model} (h : m.Edits k) : m.Evolves k := by
  cases h with
  | same => exact Evolves.refl m
  | changed h => exact (m.evolves_apply h).trans (evolves_resorted _)
  | unlinked => exact m.evolves_apply rfl
  | cleared => exact m.evolves_clear
  | loaded h => exact (evolves_loaded h).trans (Enforcer.evolves_sorted _)

theorem ordersBySubject_of_bare {m k : Model} (h : k.bare = m.bare) :
    Enforcer.ordersBySubject k = Enforcer.ordersBySubject m := by
  unfold Enforcer.ordersBySubject
  cases hk : k.find? "e" "e" with
  | none =>
    cases hm : m.find? "e" "e" with
    | none => rfl
    | some d =>
      obtain ⟨new, hnew, -⟩ := find?_of_bare h.symm hm
      simp [hk] at hnew
  | some d =>
    obtain ⟨old, hold, heq⟩ := find?_of_bare h hk
    rw [hold, Option.any_some, Option.any_some, Definition.value_eq heq]

/-- Policy rows are sorted by subjects exactly when the default effect is of that kind. -/
theorem ordersBySubject_iff (m : Model) : Enforcer.ordersBySubject m = true ↔
    ∃ d, m.find? "e" "e" = some d ∧ EffectKind.ofText d.value = .ok .subjectPriority := by
  unfold Enforcer.ordersBySubject
  rw [Option.any_eq_true_iff_get]
  cases hd : m.find? "e" "e" with
  | none => simp
  | some d =>
    cases hkind : EffectKind.ofText d.value with
    | error err => simp [hkind]
    | ok kind => simp [hkind]

theorem ordersBySubject_eq_false {m : Model}
    (h : ∀ d, m.find? "e" "e" = some d → EffectKind.ofText d.value ≠ .ok .subjectPriority) :
    Enforcer.ordersBySubject m = false := by
  rw [Bool.eq_false_iff]
  intro htrue
  obtain ⟨d, hd, hkind⟩ := m.ordersBySubject_iff.1 htrue
  exact h d hd hkind

end Model

namespace Enforcer

variable {σ : Type} {sec name : String}

/-- Whether a call leaves the model in its place. -/
def Call.keepsDefinitions : Call σ → Bool
  | .setModel .. => false
  | _ => true

/-! ## Changes of rows -/

theorem setRows_eq (e : Enforcer σ) (m : Model) :
    e.setRows m true = { e with model := m.resorted } := by
  unfold setRows Model.resorted
  simp

theorem model_unlinkRow {e k : Enforcer σ} {old new : Row} {result : Except Error Unit}
    (h : e.unlinkRow sec name old new = (result, k)) : k.model = e.model := by
  obtain ⟨managers, rfl⟩ := relinked_unlinkRow h
  rfl

theorem model_changeManager (e : Enforcer σ) (name : String) (f : RoleManager → RoleManager) :
    (e.changeManager name f).2.model = e.model := by
  unfold changeManager
  split
  · rfl
  · next m _ =>
    have hset : e.setManager name (f m) = (_, (e.setManager name (f m)).2) := rfl
    exact (setManager_frame hset).1

/-- Nothing is changed where no rows are dropped. -/
theorem eraseWhere_of_filter_nil {d : Definition} {test : Row → Bool} (h : d.rows.filter test = []) :
    (d.eraseWhere test).1 = d := by
  have hsetup : d.rows.filter (fun row => !test row) = d.rows := by
    rw [List.filter_eq_self]
    intro row hrow
    have hnot := List.filter_eq_nil_iff.1 h row hrow
    simpa using hnot
  unfold Definition.eraseWhere
  rw [h, hsetup]
  rfl

variable [PolicyStore σ] {e k : Enforcer σ} {result : Except Error Bool}

/-- Rows that fit are added and sorted, when their links and the store take them. -/
theorem perform_addRows_resorted {l s : Enforcer σ} {rows : List Row} {d : Definition}
    (hvalid : e.Valid) (hsec : sec = "p" ∨ sec = "g") (hd : e.model.find? sec name = some d)
    (hfollow : e.followRows sec name .add rows = (.ok (), l))
    (hpersist : l.persist (storeRows sec name rows) = (.ok (), s))
    (hfit : (∀ row ∈ rows, row.length = d.fields.length) ∧ (∀ row ∈ rows, row ∉ d.rows) ∧
      rows.Nodup ∧ rows ≠ []) :
    (e.perform (.addRows sec name rows)).2 =
      { s with model := (e.model.modify sec name (·.insertAll rows)).resorted } := by
  obtain ⟨hlen, hnew, hnodup, hne⟩ := hfit
  have hadd := addRows_eq hsec hd (hvalid.model.tidy sec name d hd) hlen hnew hnodup hne hfollow hpersist
  unfold perform
  dsimp only
  rw [hadd, setRows_eq]
  rfl

theorem edits_addRows {rows : List Row} (h : e.addRows sec name rows = (result, k)) :
    e.model.Edits k.model := by
  have hsame : k.model = e.model → e.model.Edits k.model := fun heq => heq ▸ .same
  cases adds_of_addRows h with
  | refused => exact .same
  | unlinked _ _ hlink => exact hsame (model_followRows hlink)
  | unstored _ _ hlink hstore hundo =>
    exact hsame ((model_followRows hundo).trans ((model_persist hstore).trans (model_followRows hlink)))
  | misfiled _ _ hlink hstore => exact hsame ((model_persist hstore).trans (model_followRows hlink))
  | added hadded =>
    obtain ⟨hsec, hd, hfresh, -, -, rfl⟩ := hadded
    have happly : e.model.apply (.addMany sec name rows) =
        e.model.modify sec name (·.insertAll rows) := by
      show e.model.outcome (e.model.addMany sec name rows) = _
      rw [Model.addMany_eq hsec hd hfresh.arity hfresh.new hfresh.distinct]
      rfl
    rw [setRows_eq, ← happly]
    exact .changed rfl

theorem edits_removeRows {rows : List Row} (h : e.removeRows sec name rows = (result, k)) :
    e.model.Edits k.model := by
  have hsame : k.model = e.model → e.model.Edits k.model := fun heq => heq ▸ .same
  cases removes_of_removeRows h with
  | refused => exact .same
  | unstored hstore => exact hsame (model_persist hstore)
  | linked _ _ hstore hunlink | misfiled _ _ hstore hunlink =>
    exact hsame ((model_followRows hunlink).trans (model_persist hstore))
  | removed hremoved =>
    obtain ⟨hsec, hd, hold, -, -, rfl⟩ := hremoved
    have happly : e.model.apply (.removeMany sec name rows) =
        e.model.modify sec name (·.eraseAll rows) := by
      show e.model.outcome (e.model.removeMany sec name rows) = _
      rw [Model.removeMany_eq hsec hd (List.all_eq_true.2 hold)]
      rfl
    rw [setRows_eq, ← happly]
    exact .changed rfl

theorem edits_updateRow (hvalid : e.Valid) {old new : Row}
    (h : e.updateRow sec name old new = (result, k)) : e.model.Edits k.model := by
  have hsame : k.model = e.model → e.model.Edits k.model := fun heq => heq ▸ .same
  cases updates_of_updateRow h with
  | refused => exact .same
  | unlinked _ _ hlink => exact hsame (model_relinkRow hlink)
  | unstored _ _ hlink hstore hundo =>
    exact hsame ((model_unlinkRow hundo).trans ((model_persist hstore).trans (model_relinkRow hlink)))
  | misfiled _ _ hlink hstore => exact hsame ((model_persist hstore).trans (model_relinkRow hlink))
  | @updated d _ _ hsec hd hrow _ _ =>
    have hthere : d.rows.contains old = true :=
      List.contains_iff_mem.2 (((hvalid.model.tidy sec name d hd).contains_iff old).1 hrow.there)
    have happly : e.model.apply (.replace sec name old new) =
        e.model.modify sec name (·.replace old new) := by
      show e.model.outcome (e.model.replace sec name old new) = _
      rw [Model.replace_eq hsec hd hrow.arity hrow.there hrow.free]
      rfl
    rw [hthere, setRows_eq, ← happly]
    exact .changed rfl

theorem edits_removeFiltered (hvalid : e.Valid) (hmanaged : e.Managed) {index : Nat}
    {values : List String} (h : e.removeFiltered sec name index values = (result, k)) :
    e.model.Edits k.model := by
  have happly : ∀ {m : Model} {removed : List Row},
      e.model.removeFiltered sec name index values = .ok (m, removed) →
        e.model.apply (.removeFiltered sec name index values) = m := by
    intro m removed hremove
    show e.model.outcome (e.model.removeFiltered sec name index values) = m
    rw [hremove]
    rfl
  cases removesFiltered_of_removeFiltered h with
  | refused => exact .same
  | unstored hstore | misfiled _ _ hstore => exact model_persist hstore ▸ .same
  | none hd _ hremove =>
    rcases Model.removeFiltered_cases hremove with ⟨rfl, -⟩ | ⟨d, hd, hnone, rfl⟩
    · exact .same
    · have heq := Model.modify_of_find? hd
        (f := fun d => (d.eraseWhere (rowMatches index values)).1)
        (eraseWhere_of_filter_nil hnone.symm)
      dsimp only
      rw [heq]
      exact .same
  | @linked d s _ m removed _ hd hstore hremove hunlink =>
    rw [model_followRows hunlink]
    dsimp only
    -- the links of rows that have one can be dropped, so there is one without
    have hconfig : s.managers = e.managers := by
      obtain ⟨store, rfl⟩ := persist_eq hstore
      rfl
    by_cases hall : sec = "g" → ∀ row ∈ removed, ∃ l, linkOf? row = some l
    · obtain ⟨l, hl⟩ : ∃ l, ({ s with model := m } : Enforcer σ).followRows sec name .remove removed =
          (.ok (), l) :=
        followRows_remove (fun hsec => hconfig ▸ hmanaged.mem_keys hvalid.model.toNamed (hsec ▸ hd))
          fun hsec _ => hall hsec
      rw [hl] at hunlink
      simp at hunlink
    · push Not at hall
      obtain ⟨rfl, row, hrow, hnone⟩ := hall
      rw [← happly hremove]
      exact .unlinked hd (Model.mem_of_removeFiltered hremove hd row hrow)
        (Option.eq_none_iff_forall_ne_some.2 hnone) index values
  | removed _ _ hremove _ =>
    rw [setRows_eq, ← happly hremove]
    exact .changed rfl

theorem edits_clear {result : Except Error Unit} (h : e.clear = (result, k)) :
    e.model.Edits k.model := by
  unfold clear at h
  split at h
  · next hstore =>
    rw [← (Prod.mk.inj h).2, model_persist hstore]
    exact .same
  · next hstore =>
    rw [← (Prod.mk.inj h).2]
    dsimp only
    rw [model_persist hstore]
    exact .cleared

/-! ## Loads -/

/-- The lines that a load which goes through took. -/
theorem model_finishLoad_ok {filtered : Bool} {reading : Reading} {m : Model}
    (h : e.finishLoad (PolicyStore.finishLoad e.store filtered reading m) = (.ok (), k)) :
    ∃ l, m.addLines reading.lines = (.ok (), l) ∧ k.model = l.sorted := by
  obtain ⟨store, hinstall⟩ := finishLoad_ok h
  have hmodel := model_install_ok hinstall
  rw [hmodel]
  unfold PolicyStore.finishLoad at h ⊢
  split at h
  · simp [finishLoad] at h
  · next l hl =>
    refine ⟨l, hl, ?_⟩
    split <;> rfl

theorem edits_finishLoad {filtered : Bool} {reading : Reading} {result : Except Error Unit}
    (h : e.finishLoad (PolicyStore.finishLoad e.store filtered reading e.model.clear) = (result, k)) :
    e.model.Edits k.model := by
  match result, h with
  | .ok (), h =>
    obtain ⟨l, hl, hmodel⟩ := model_finishLoad_ok h
    rw [hmodel]
    exact .loaded hl
  | .error err, h =>
    rw [model_finishLoad_error h]
    exact .same

/-- The rows of a new enforcer are those that were loaded into its model. -/
theorem Made.loaded {e : Enforcer σ} (h : e.Made) : ∃ (model k : Model) (lines : List Line),
    model.Built ∧ model.clear.addLines lines = (.ok (), k) ∧ e.model = k.sorted := by
  obtain ⟨model, store, config, hbuilt, hmake⟩ := h
  obtain ⟨l, hl, hmodel⟩ := model_finishLoad_ok (make_ok hmake).2
  exact ⟨model, l, _, hbuilt, hl, hmodel⟩

/-! ## Runs -/

theorem managed_perform (hmanaged : e.Managed) {c : Call σ} (hc : c.keepsDefinitions = true) :
    (e.perform c).2.Managed := by
  cases hrows : c.onRows with
  | true => exact (e.sameSetup_perform hrows).managed hmanaged
  | false =>
    cases c with
    | setModel => simp [Call.keepsDefinitions] at hc
    | setManager => exact managed_setManager hmanaged rfl
    | setNameMatch name f | setDomainMatch name f =>
      unfold perform setNameMatch setDomainMatch changeManager
      dsimp only
      split
      · exact hmanaged
      · next m _ => exact managed_setManager (m := _) hmanaged rfl
    | removeFunction name =>
      unfold perform removeFunction
      dsimp only
      split <;> exact hmanaged
    | enforce ctx request =>
      obtain ⟨evaluation, heq, -⟩ := e.enforce_frame ctx request
      have hk : (e.perform (.enforce ctx request)).2 = { e with evaluation } := heq
      rw [hk]
      exact hmanaged
    | enable | enableLog | enableAutoSave | enableAutoLinks | setEffector | addFunction | takeTrace =>
      exact hmanaged
    | _ => simp [Call.onRows] at hrows

/-- A call edits the model, unless it takes another one. -/
theorem edits_perform (hvalid : e.Valid) (hmanaged : e.Managed) {c : Call σ}
    (hc : c.keepsDefinitions = true) : e.model.Edits (e.perform c).2.model := by
  cases c with
  | setModel => simp [Call.keepsDefinitions] at hc
  | addRows => exact edits_addRows rfl
  | removeRows => exact edits_removeRows rfl
  | removeFiltered => exact edits_removeFiltered hvalid hmanaged rfl
  | updateRow => exact edits_updateRow hvalid rfl
  | clear => exact edits_clear rfl
  | load | loadFiltered => exact edits_finishLoad rfl
  | setManager name m =>
    have hset : e.setManager name m = (_, (e.setManager name m).2) := rfl
    have hmodel : (e.perform (.setManager name m)).2.model = e.model := (setManager_frame hset).1
    exact hmodel ▸ .same
  | setNameMatch name f | setDomainMatch name f =>
    have hmodel := e.model_changeManager name
    exact (hmodel _).symm ▸ .same
  | save =>
    obtain ⟨store, heq⟩ := save_eq (e := e) rfl
    have hk : (e.perform Call.save).2 = { e with store } := heq
    rw [hk]
    exact .same
  | enforce ctx request =>
    obtain ⟨evaluation, heq, -⟩ := e.enforce_frame ctx request
    have hk : (e.perform (.enforce ctx request)).2 = { e with evaluation } := heq
    rw [hk]
    exact .same
  | removeFunction name =>
    unfold perform removeFunction
    dsimp only
    split <;> exact .same
  | _ => exact .same

/-- What loads of a model give, and edits keep, holds of the model in every state of a run that does not
take another model. -/
theorem Reachable.model_induction {start : Enforcer σ → Prop} {P : Model → Prop}
    (hstart : ∀ e, start e → e.Made)
    (hloaded : ∀ (e : Enforcer σ) (m k : Model) (lines : List Line), start e → m.Built →
      m.clear.addLines lines = (.ok (), k) → e.model = k.sorted → P k.sorted)
    (hedits : ∀ m k : Model, m.WellFormed → m.Edits k → P m → P k) {e : Enforcer σ}
    (h : Reachable start (fun _ c => c.keepsDefinitions = true) e) : P e.model := by
  have hall : e.Valid ∧ e.Managed ∧ P e.model := by
    induction h with
    | start h =>
      have hmade := hstart _ h
      obtain ⟨m, k, lines, hbuilt, hlines, hmodel⟩ := hmade.loaded
      refine ⟨hmade.valid, ?_, hmodel ▸ hloaded _ m k lines h hbuilt hlines hmodel⟩
      obtain ⟨model, store, config, -, hmake⟩ := hmade
      exact (sameSetup_load (make_ok hmake).2).managed (managed_initManagers _)
    | step c _ hc ih =>
      obtain ⟨hvalid, hmanaged, hp⟩ := ih
      exact ⟨valid_perform hvalid c, managed_perform hmanaged hc,
        hedits _ _ hvalid.model (edits_perform hvalid hmanaged hc) hp⟩
  exact hall.2.2

end Enforcer

end AccessControl
