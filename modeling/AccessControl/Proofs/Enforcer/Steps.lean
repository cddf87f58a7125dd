import AccessControl.Proofs.Enforcer.Outcomes
import AccessControl.Proofs.Store.Answers
import Mathlib.Logic.Relation
/-!
# What operations on rows are made of

Adding, dropping and updating rows of a definition, with everything that is taken back when a part of it
fails, comes down to four kinds of steps: the store changes, the manager of the definition takes a batch
of links, the rows of the definition change, and policy rows are sorted.

    e.addRows sec name rows = (result, k) → e.Steps sec name k         (`steps_addRows`)
    e.updateRow sec name old new = (result, k) → e.Steps sec name k    (`steps_updateRow`)
-/

namespace AccessControl

namespace Enforcer

variable {σ : Type} {sec name : String}

/-! ## Parts of operations -/

/-- A model that is the same or changed one definition. -/
def ChangedAt (m : Model) (sec name : String) (k : Model) : Prop :=
  k = m ∨ ∃ f, k = m.modify sec name f ∧ m.Evolves k

theorem changedAt_addMany {m k : Model} {rows : List Row} {changed : Bool}
    (h : m.addMany sec name rows = .ok (k, changed)) : ChangedAt m sec name k := by
  rcases Model.addMany_cases h with heq | ⟨d, -, -, -, -, heq⟩
  · exact Or.inl heq
  · exact Or.inr ⟨_, heq, Model.evolves_addMany h⟩

theorem changedAt_removeMany {m k : Model} {rows : List Row} {changed : Bool}
    (h : m.removeMany sec name rows = .ok (k, changed)) : ChangedAt m sec name k := by
  rcases Model.removeMany_cases h with heq | heq
  · exact Or.inl heq
  · exact Or.inr ⟨_, heq, Model.evolves_removeMany h⟩

theorem changedAt_replace {m k : Model} {old new : Row} {changed : Bool}
    (h : m.replace sec name old new = .ok (k, changed)) : ChangedAt m sec name k := by
  rcases Model.replace_cases h with heq | ⟨d, -, -, -, -, heq⟩
  · exact Or.inl heq
  · exact Or.inr ⟨_, heq, Model.evolves_replace h⟩

theorem changedAt_removeFiltered {m k : Model} {index : Nat} {values : List String}
    {removed : List Row} (h : m.removeFiltered sec name index values = .ok (k, removed)) :
    ChangedAt m sec name k := by
  rcases Model.removeFiltered_cases h with ⟨heq, -⟩ | ⟨d, -, -, heq⟩
  · exact Or.inl heq
  · exact Or.inr ⟨_, heq, Model.evolves_removeFiltered h⟩

variable [PolicyStore σ]

theorem operation_storeRows (rows : List Row) :
    PolicyStore.Operation fun s : σ => storeRows sec name rows s := by
  match rows with
  | [] => exact ⟨.addMany sec name [], fun _ => rfl⟩
  | [row] => exact ⟨.add sec name row, fun _ => rfl⟩
  | row :: other :: rest => exact ⟨.addMany sec name (row :: other :: rest), fun _ => rfl⟩

theorem operation_unstoreRows (rows : List Row) :
    PolicyStore.Operation fun s : σ => unstoreRows sec name rows s := by
  match rows with
  | [] => exact ⟨.removeMany sec name [], fun _ => rfl⟩
  | [row] => exact ⟨.remove sec name row, fun _ => rfl⟩
  | row :: other :: rest => exact ⟨.removeMany sec name (row :: other :: rest), fun _ => rfl⟩

theorem operation_removeFiltered (index : Nat) (values : List String) :
    PolicyStore.Operation fun s : σ => PolicyStore.removeFiltered s sec name index values :=
  ⟨.removeFiltered sec name index values, fun _ => rfl⟩

theorem operation_update (old new : Row) :
    PolicyStore.Operation fun s : σ => PolicyStore.update s sec name old new :=
  ⟨.update sec name old new, fun _ => rfl⟩

theorem operation_clear : PolicyStore.Operation fun s : σ => PolicyStore.clear s :=
  ⟨.clear, fun _ => rfl⟩

/-! ## Steps -/

/-- A step of an operation on a definition. -/
inductive RowStep (sec name : String) : Enforcer σ → Enforcer σ → Prop where
  | store (e : Enforcer σ) (op : StoreOp) :
      RowStep sec name e { e with store := (PolicyStore.change e.store op).2 }
  | links (e : Enforcer σ) {m k : RoleManager} {change : LinkChange} {rows : List Row}
      {result : Except Error Unit} (hsec : sec = "g") (hm : e.managers.find name = some m)
      (hbatch : m.applyBatch change rows = (result, k)) :
      RowStep sec name e { e with managers := e.managers.put name k }
  | rows (e : Enforcer σ) {f : Definition → Definition}
      (h : e.model.Evolves (e.model.modify sec name f)) :
      RowStep sec name e { e with model := e.model.modify sec name f }
  | sort (e : Enforcer σ) : RowStep sec name e { e with model := e.model.sortBySubject }

/-- Any number of steps. -/
def Steps (e : Enforcer σ) (sec name : String) (k : Enforcer σ) : Prop :=
  Relation.ReflTransGen (RowStep sec name) e k

theorem Steps.refl (e : Enforcer σ) : e.Steps sec name e := Relation.ReflTransGen.refl

theorem Steps.trans {e k l : Enforcer σ} (h : e.Steps sec name k) (h' : k.Steps sec name l) :
    e.Steps sec name l := Relation.ReflTransGen.trans h h'

/-- An operation that does nothing takes no step. -/
theorem steps_of_eq {α : Type} {e k : Enforcer σ} {r result : α} (h : (r, e) = (result, k)) :
    e.Steps sec name k := (Prod.mk.inj h).2 ▸ Steps.refl e

theorem steps_persist {α : Type} {e k : Enforcer σ} {change : σ → Except StoreError α × σ}
    (hchange : PolicyStore.Operation change) {result : Except Error Unit}
    (h : e.persist change = (result, k)) : e.Steps sec name k := by
  obtain ⟨op, hop⟩ := hchange
  unfold persist at h
  split at h
  · rw [← (Prod.mk.inj h).2, show (change e.store).2 = (PolicyStore.change e.store op).2 by
      rw [hop, storeOutcome]]
    exact .single (.store e op)
  · exact steps_of_eq h

theorem steps_followRows {e k : Enforcer σ} {change : LinkChange} {rows : List Row}
    {result : Except Error Unit} (h : e.followRows sec name change rows = (result, k)) :
    e.Steps sec name k := by
  unfold followRows at h
  split at h
  · next hsec =>
    unfold linkRows at h
    split at h
    · exact steps_of_eq h
    · next m hm =>
      rcases hb : m.applyBatch change rows with ⟨r, l⟩
      rw [hb] at h
      rw [← (Prod.mk.inj h).2]
      exact .single (.links e (by simp_all) hm hb)
  · exact steps_of_eq h

theorem steps_model {e : Enforcer σ} {m : Model} (h : ChangedAt e.model sec name m) :
    e.Steps sec name { e with model := m } := by
  rcases h with rfl | ⟨f, rfl, hevolves⟩
  · exact Steps.refl e
  · exact .single (.rows e hevolves)

theorem steps_setRows {e : Enforcer σ} {m : Model} (h : ChangedAt e.model sec name m) (changed : Bool) :
    e.Steps sec name (e.setRows m changed) := by
  have hm := steps_model h
  unfold setRows
  split
  · exact hm.trans (.single (.sort { e with model := m }))
  · exact hm

theorem steps_relinkRow {e k : Enforcer σ} {old new : Row} {result : Except Error Unit}
    (h : e.relinkRow sec name old new = (result, k)) : e.Steps sec name k := by
  unfold relinkRow at h
  split at h
  · next hremove =>
    rw [← (Prod.mk.inj h).2]
    exact steps_followRows hremove
  · next hremove =>
    have hl : e.Steps sec name _ := steps_followRows hremove
    split at h
    · next hadd =>
      rw [← (Prod.mk.inj h).2]
      exact hl.trans (steps_followRows hadd)
    · next hadd =>
      have hl := hl.trans (steps_followRows hadd)
      split at h <;> next hback =>
        rw [← (Prod.mk.inj h).2]
        exact hl.trans (steps_followRows hback)

theorem steps_unlinkRow {e k : Enforcer σ} {old new : Row} {result : Except Error Unit}
    (h : e.unlinkRow sec name old new = (result, k)) : e.Steps sec name k := by
  unfold unlinkRow at h
  split at h
  · next hremove =>
    rw [← (Prod.mk.inj h).2]
    exact steps_followRows hremove
  · next hremove => exact (steps_followRows hremove).trans (steps_followRows h)

/-! ## Operations -/

theorem steps_addRows {e k : Enforcer σ} {rows : List Row} {result : Except Error Bool}
    (h : e.addRows sec name rows = (result, k)) : e.Steps sec name k := by
  cases adds_of_addRows h with
  | refused => exact Steps.refl e
  | unlinked _ _ hlink => exact steps_followRows hlink
  | misfiled _ _ hlink hstore =>
    exact (steps_followRows hlink).trans (steps_persist (operation_storeRows rows) hstore)
  | unstored _ _ hlink hstore hundo =>
    have hl := (steps_followRows hlink).trans (steps_persist (operation_storeRows rows) hstore)
    exact hl.trans (steps_followRows hundo)
  | added hadded =>
    obtain ⟨hsec, hd, hfresh, hlink, hstore, rfl⟩ := hadded
    have hs := (steps_followRows hlink).trans (steps_persist (operation_storeRows rows) hstore)
    have hmodel := (model_persist hstore).trans (model_followRows hlink)
    refine hs.trans (steps_setRows ?_ true)
    rw [hmodel]
    exact changedAt_addMany (Model.addMany_eq hsec hd hfresh.arity hfresh.new hfresh.distinct)

theorem steps_removeRows {e k : Enforcer σ} {rows : List Row} {result : Except Error Bool}
    (h : e.removeRows sec name rows = (result, k)) : e.Steps sec name k := by
  cases removes_of_removeRows h with
  | refused => exact Steps.refl e
  | unstored hstore => exact steps_persist (operation_unstoreRows rows) hstore
  | linked _ _ hstore hunlink | misfiled _ _ hstore hunlink =>
    exact (steps_persist (operation_unstoreRows rows) hstore).trans (steps_followRows hunlink)
  | removed hremoved =>
    obtain ⟨hsec, hd, hold, hstore, hunlink, rfl⟩ := hremoved
    have hl := (steps_persist (operation_unstoreRows rows) hstore).trans (steps_followRows hunlink)
    have hmodel := (model_followRows hunlink).trans (model_persist hstore)
    refine hl.trans (steps_setRows ?_ true)
    rw [hmodel]
    exact changedAt_removeMany (Model.removeMany_eq hsec hd (List.all_eq_true.2 hold))

theorem steps_removeFiltered {e k : Enforcer σ} {index : Nat} {values : List String}
    {result : Except Error Bool} (h : e.removeFiltered sec name index values = (result, k)) :
    e.Steps sec name k := by
  have hs : ∀ {s : Enforcer σ} {r : Except Error Unit},
      e.persist (fun s => PolicyStore.removeFiltered s sec name index values) = (r, s) →
        e.Steps sec name s := fun hstore => steps_persist (operation_removeFiltered index values) hstore
  have hm : ∀ {s : Enforcer σ} {m : Model} {removed : List Row},
      e.persist (fun s => PolicyStore.removeFiltered s sec name index values) = (.ok (), s) →
        e.model.removeFiltered sec name index values = .ok (m, removed) →
          e.Steps sec name { s with model := m } := by
    intro s m removed hstore hremove
    rw [← model_persist hstore] at hremove
    exact (hs hstore).trans (steps_model (changedAt_removeFiltered hremove))
  cases removesFiltered_of_removeFiltered h with
  | refused => exact Steps.refl e
  | unstored hstore | misfiled _ _ hstore => exact hs hstore
  | none _ hstore hremove => exact hm hstore hremove
  | linked _ hstore hremove hunlink => exact (hm hstore hremove).trans (steps_followRows hunlink)
  | removed _ hstore hremove hunlink =>
    refine ((hm hstore hremove).trans (steps_followRows hunlink)).trans (steps_setRows ?_ true)
    exact Or.inl (model_followRows hunlink).symm

theorem steps_updateRow {e k : Enforcer σ} {old new : Row} {result : Except Error Bool}
    (h : e.updateRow sec name old new = (result, k)) : e.Steps sec name k := by
  cases updates_of_updateRow h with
  | refused => exact Steps.refl e
  | unlinked _ _ hlink => exact steps_relinkRow hlink
  | misfiled _ _ hlink hstore =>
    exact (steps_relinkRow hlink).trans (steps_persist (operation_update old new) hstore)
  | unstored _ _ hlink hstore hundo =>
    have hs := (steps_relinkRow hlink).trans (steps_persist (operation_update old new) hstore)
    exact hs.trans (steps_unlinkRow hundo)
  | updated hsec hd hrow hlink hstore =>
    have hs := (steps_relinkRow hlink).trans (steps_persist (operation_update old new) hstore)
    have hmodel := (model_persist hstore).trans (model_relinkRow hlink)
    refine hs.trans (steps_setRows ?_ _)
    rw [hmodel]
    exact changedAt_replace (Model.replace_eq hsec hd hrow.arity hrow.there hrow.free)

end Enforcer

end AccessControl
