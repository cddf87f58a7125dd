import AccessControl.Proofs.Enforcer.Steps
import AccessControl.Proofs.Store.Memory
/-!
# Changes over a store in memory

A store in memory never fails, and a change takes it also when it answers that there was nothing to do; so
what a change did to the store is told by the operation it used, not by its answer.  A change of policy or
role rows is either accepted or stops before the store.

    e.Added … k → k.store = (storeRows sec name rows e.store).2         (`Added.store_memory`)
    e.addRows sec name rows = (result, k) → result ≠ .ok true → e.Relinked k
                                                                        (`relinked_addRows_memory`)
    e.removeRows sec name rows = (result, k) → result ≠ .ok true → k = e, when links can be dropped
                                                                        (`eq_removeRows_memory`)
-/

namespace AccessControl

namespace Enforcer

variable {σ : Type} {sec name : String}

theorem store_setRows (e : Enforcer σ) (m : Model) (changed : Bool) :
    (e.setRows m changed).store = e.store := rfl

section

variable {e k : Enforcer MemoryStore} {rows : List Row}

theorem persist_storeRows (h : e.config.autoSave = true) :
    e.persist (storeRows sec name rows) =
      (.ok (), { e with store := (storeRows sec name rows e.store).2 }) := by
  unfold persist
  rw [if_pos h]
  match rows with
  | [] | [_] | _ :: _ :: _ => rfl

theorem persist_unstoreRows (h : e.config.autoSave = true) :
    e.persist (unstoreRows sec name rows) =
      (.ok (), { e with store := (unstoreRows sec name rows e.store).2 }) := by
  unfold persist
  rw [if_pos h]
  match rows with
  | [] | [_] | _ :: _ :: _ => rfl

theorem persist_update {old new : Row} (h : e.config.autoSave = true) :
    e.persist (fun s => PolicyStore.update s sec name old new) =
      (.ok (), { e with store := (e.store.update (name :: old) (name :: new)).2 }) := by
  unfold persist
  rw [if_pos h]
  rfl

theorem persist_removeFiltered {index : Nat} {values : List String} (h : e.config.autoSave = true) :
    e.persist (fun s => PolicyStore.removeFiltered s sec name index values) =
      (.ok (), { e with store := (e.store.removeFiltered name index values).2 }) := by
  unfold persist
  rw [if_pos h]
  rfl

theorem Added.store_memory {d : Definition} {l s : Enforcer MemoryStore}
    (h : e.Added sec name rows d l s k) (hsave : e.config.autoSave = true) :
    k.store = (storeRows sec name rows e.store).2 := by
  obtain ⟨managers, rfl⟩ := relinked_followRows h.linked
  have hstored := h.stored
  rw [persist_storeRows (by exact hsave)] at hstored
  rw [h.after, store_setRows, ← (Prod.mk.inj hstored).2]

theorem Removed.store_memory {d : Definition} {s l : Enforcer MemoryStore}
    (h : e.Removed sec name rows d s l k) (hsave : e.config.autoSave = true) :
    k.store = (unstoreRows sec name rows e.store).2 := by
  obtain ⟨managers, hl⟩ := relinked_followRows h.unlinked
  have hstored := h.stored
  rw [persist_unstoreRows hsave] at hstored
  rw [h.after, store_setRows, hl, ← (Prod.mk.inj hstored).2]

/-- Rows that are not accepted do not get to the store: their links are refused or taken back. -/
theorem relinked_addRows_memory (hsec : sec = "p" ∨ sec = "g") (hsave : e.config.autoSave = true)
    {result : Except Error Bool} (hr : result ≠ .ok true)
    (h : e.addRows sec name rows = (result, k)) : e.Relinked k := by
  cases adds_of_addRows h with
  | refused => exact ⟨e.managers, rfl⟩
  | unlinked _ _ hlink => exact relinked_followRows hlink
  | unstored _ _ hlink hstore =>
    -- the store does not fail
    obtain ⟨managers, rfl⟩ := relinked_followRows hlink
    rw [persist_storeRows (by exact hsave)] at hstore
    exact absurd (Prod.mk.inj hstore).1 (by simp)
  | misfiled hother => exact absurd hsec hother
  | added => exact absurd rfl hr

/-- Rows that are not dropped are not dropped anywhere, when those that are there have links. -/
theorem eq_removeRows_memory (hsec : sec = "p" ∨ sec = "g") (hsave : e.config.autoSave = true)
    (hlinks : ∀ d, e.model.find? sec name = some d → ∀ store : MemoryStore,
      (∀ row ∈ rows, d.contains row = true) → ∃ l,
        ({ e with store } : Enforcer MemoryStore).followRows sec name .remove rows = (.ok (), l))
    {result : Except Error Bool} (hr : result ≠ .ok true)
    (h : e.removeRows sec name rows = (result, k)) : k = e := by
  cases removes_of_removeRows h with
  | refused => rfl
  | unstored hstore =>
    rw [persist_unstoreRows hsave] at hstore
    exact absurd (Prod.mk.inj hstore).1 (by simp)
  | linked hd hold hstore hunlink =>
    obtain ⟨store, rfl⟩ := persist_eq hstore
    obtain ⟨l, hl⟩ := hlinks _ hd store hold
    exact absurd (Prod.mk.inj (hl.symm.trans hunlink)).1 (by simp)
  | misfiled hother => exact absurd hsec hother
  | removed => exact absurd rfl hr

/-! ## Lines in memory and in the store -/

/-- The lines of the store are those of the model, whatever their order. -/
def SameLines (e : Enforcer MemoryStore) : Prop :=
  ∀ line, line ∈ e.store.lines ↔ line ∈ e.model.lines

end

end Enforcer

end AccessControl
