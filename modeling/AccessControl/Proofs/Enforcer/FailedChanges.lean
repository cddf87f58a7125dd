import AccessControl.Proofs.Enforcer.ConsistentRuns
import AccessControl.Proofs.Store.Answers
/-!
# Changes of rows that are refused

A change of rows goes through the links, the store and the model in turn, and each can refuse it when
others have taken it already.  What was taken is then given back: the links of the rows before the one
that closes a cycle, the old link of a row whose new one does not fit, all links when the store fails.
The steps that come after the store cannot fail, and neither can giving back.

    e.addRows sec name rows = (result, k) → result ≠ .ok true → e.SameRows seen k
                                                                       (`sameRows_addRows`)
    e.Consistent → k.Consistent → e.SameRows seen k → e.Unchanged seen k
                                                                       (`Consistent.unchanged`)
    a change that is refused leaves no trace                           (`refused_unchanged`)
-/

namespace AccessControl

namespace Enforcer

variable {σ α : Type} {sec name : String} {seen : σ → α}

/-- From one enforcer to another with the same rows, in the same order, and the same content of the
store. -/
structure SameRows (seen : σ → α) (e k : Enforcer σ) : Prop where
  model : k.model = e.model
  stored : seen k.store = seen e.store

/-- From one enforcer to another in which nothing can be told apart: neither rows, nor what managers
answer, nor what is stored. -/
structure Unchanged (seen : σ → α) (e k : Enforcer σ) : Prop where
  model : k.model = e.model
  links : ∀ definition a b domain, k.hasLink? definition a b domain = e.hasLink? definition a b domain
  stored : seen k.store = seen e.store

theorem SameRows.refl (e : Enforcer σ) : e.SameRows seen e := ⟨rfl, rfl⟩

theorem SameRows.trans {e l k : Enforcer σ} (h : e.SameRows seen l) (h' : l.SameRows seen k) :
    e.SameRows seen k := ⟨h'.model.trans h.model, h'.stored.trans h.stored⟩

theorem Relinked.sameRows {e k : Enforcer σ} (h : e.Relinked k) : e.SameRows seen k := by
  obtain ⟨_, rfl⟩ := h
  exact ⟨rfl, rfl⟩

/-! ## The store -/

/-- A store that refuses a change holds what it held. -/
theorem sameRows_persist_error [PolicyStore σ] (hstore : PolicyStore.CleanFailures seen) {β : Type}
    {e k : Enforcer σ} {change : σ → Except StoreError β × σ} (hchange : PolicyStore.Operation change)
    {err : Error} (h : e.persist change = (.error err, k)) : e.SameRows seen k := by
  obtain ⟨op, hop⟩ := hchange
  unfold persist at h
  split at h
  · rcases hc : change e.store with ⟨failure | _, store⟩
    · rw [hc] at h
      have hrun : PolicyStore.change e.store op = (.error failure, store) := by rw [hop, hc]; rfl
      obtain ⟨-, rfl⟩ := Prod.mk.inj h
      exact ⟨rfl, hstore op e.store store failure hrun⟩
    · rw [hc] at h
      simp [tolerate] at h
  · simp at h

/-! ## Definitions whose rows can be changed -/

/-- A definition that holds rows, with a manager that follows them if they are links. -/
structure Followed (e : Enforcer σ) (sec name : String) (d : Definition) : Prop where
  section_eq : sec = "p" ∨ sec = "g"
  found : e.model.find? sec name = some d
  tidy : d.Tidy
  narrow : sec = "g" → d.fields.length ≤ 3
  auto : e.config.autoLinks = true
  tracks : sec = "g" → ∃ settings, e.Tracks name settings d.rows

theorem Consistent.followed {e : Enforcer σ} (h : e.Consistent) (hvalid : e.Valid)
    (hauto : e.config.autoLinks = true) (hsec : sec = "p" ∨ sec = "g") {d : Definition}
    (hd : e.model.find? sec name = some d) (hnarrow : sec = "g" → d.fields.length ≤ 3) :
    e.Followed sec name d where
  section_eq := hsec
  found := hd
  tidy := hvalid.model.tidy sec name d hd
  narrow := hnarrow
  auto := hauto
  tracks hg := by
    subst hg
    exact h.tracks hvalid hd

/-- The links of rows that are there can be dropped, whatever became of the store and the rows. -/
theorem Followed.remove_ok {e k : Enforcer σ} {d : Definition} (h : e.Followed sec name d)
    {old : List Row} (hold : ∀ row ∈ old, row ∈ d.rows) {model : Model} {store : σ}
    {result : Except Error Unit}
    (hrun : ({ e with model, store } : Enforcer σ).followRows sec name .remove old = (result, k)) :
    result = .ok () := by
  rcases h.section_eq with rfl | rfl
  · simp only [followRows] at hrun
    exact (Prod.mk.inj hrun).1.symm
  · obtain ⟨settings, htracks⟩ := h.tracks rfl
    have hafter : ({ e with model, store } : Enforcer σ).Tracks name settings d.rows :=
      htracks.of_eq rfl
    exact (hafter.remove h.auto (h.narrow rfl) h.tidy.arity hold hrun).1

/-! ## Rows and store -/

section

variable [PolicyStore σ] {e k : Enforcer σ} (hstore : PolicyStore.CleanFailures seen)
  (hfollowed : ∀ d, e.model.find? sec name = some d → e.Followed sec name d)

include hstore hfollowed

theorem sameRows_addRows {rows : List Row} {result : Except Error Bool} (hr : result ≠ .ok true)
    (h : e.addRows sec name rows = (result, k)) : e.SameRows seen k := by
  cases adds_of_addRows h with
  | refused => exact SameRows.refl e
  | unlinked _ _ hlink => exact (relinked_followRows hlink).sameRows
  | unstored _ _ hlink hpersist hundo =>
    have hs := (relinked_followRows hlink).sameRows.trans
      (sameRows_persist_error hstore (operation_storeRows rows) hpersist)
    exact hs.trans (relinked_followRows hundo).sameRows
  | misfiled hsec hd => exact absurd (hfollowed _ hd).section_eq hsec
  | added => exact absurd rfl hr

theorem sameRows_removeRows {rows : List Row} {result : Except Error Bool} (hr : result ≠ .ok true)
    (h : e.removeRows sec name rows = (result, k)) : e.SameRows seen k := by
  cases removes_of_removeRows h with
  | refused => exact SameRows.refl e
  | unstored hpersist => exact sameRows_persist_error hstore (operation_unstoreRows rows) hpersist
  | linked hd hold hpersist hunlink =>
    obtain ⟨store, rfl⟩ := persist_eq hpersist
    have hrows := fun row hrow => ((hfollowed _ hd).tidy.contains_iff row).1 (hold row hrow)
    exact absurd ((hfollowed _ hd).remove_ok hrows hunlink) (by simp)
  | misfiled hsec hd => exact absurd (hfollowed _ hd).section_eq hsec
  | removed => exact absurd rfl hr

theorem sameRows_removeFiltered {index : Nat} {values : List String} {err : Error}
    (h : e.removeFiltered sec name index values = (.error err, k)) : e.SameRows seen k := by
  cases removesFiltered_of_removeFiltered h with
  | refused => exact SameRows.refl e
  | unstored hpersist =>
    exact sameRows_persist_error hstore (operation_removeFiltered index values) hpersist
  | misfiled hsec hd => exact absurd (hfollowed _ hd).section_eq hsec
  | linked hd hpersist hremove hunlink =>
    obtain ⟨store, rfl⟩ := persist_eq hpersist
    have hrows := Model.mem_of_removeFiltered hremove hd
    exact absurd ((hfollowed _ hd).remove_ok hrows hunlink) (by simp)

theorem sameRows_updateRow {old new : Row} {result : Except Error Bool} (hr : result ≠ .ok true)
    (h : e.updateRow sec name old new = (result, k)) : e.SameRows seen k := by
  cases updates_of_updateRow h with
  | refused => exact SameRows.refl e
  | unlinked _ _ hlink => exact (relinked_relinkRow hlink).sameRows
  | unstored _ _ hlink hpersist hundo =>
    have hs := (relinked_relinkRow hlink).sameRows.trans
      (sameRows_persist_error hstore (operation_update old new) hpersist)
    exact hs.trans (relinked_unlinkRow hundo).sameRows
  | misfiled hsec hd => exact absurd (hfollowed _ hd).section_eq hsec
  | updated _ hd hrow =>
    have hthere := ((hfollowed _ hd).tidy.contains_iff old).1 hrow.there
    exact absurd (congrArg Except.ok (List.contains_iff_mem.2 hthere)) hr

end

/-! ## Links -/

/-- What leads back to the same rows and the same content of the store, with links to match, cannot be told
from nothing. -/
theorem Consistent.unchanged {e k : Enforcer σ} (h : e.Consistent) (h' : k.Consistent)
    (hsound : e.managers.AllSound) (hsetup : e.SameSetup k) (hsame : e.SameRows seen k) :
    e.Unchanged seen k :=
  ⟨hsame.model, h.hasLink?_eq h' hsound hsetup hsame.model, hsame.stored⟩

theorem unchanged_clear_error [PolicyStore σ] {e k : Enforcer σ}
    (hstore : PolicyStore.CleanFailures seen) {err : Error} (h : e.clear = (.error err, k)) :
    e.Unchanged seen k := by
  unfold clear at h
  split at h
  · next hpersist =>
    obtain ⟨-, rfl⟩ := Prod.mk.inj h
    have hsame := sameRows_persist_error hstore operation_clear hpersist
    obtain ⟨store, rfl⟩ := persist_eq hpersist
    exact ⟨hsame.model, fun _ _ _ _ => rfl, hsame.stored⟩
  · simp at h

/-! ## Top theorem (proved from the lemmas above) -/

/-- A change of rows that is refused: it fails, or it answers that it did nothing. -/
inductive Refused [PolicyStore σ] (e : Enforcer σ) (sec name : String) : Enforcer σ → Prop where
  | addRows {rows : List Row} {result : Except Error Bool} {k : Enforcer σ}
      (h : e.addRows sec name rows = (result, k)) (hr : result ≠ .ok true) : Refused e sec name k
  | removeRows {rows : List Row} {result : Except Error Bool} {k : Enforcer σ}
      (h : e.removeRows sec name rows = (result, k)) (hr : result ≠ .ok true) : Refused e sec name k
  | removeFiltered {index : Nat} {values : List String} {err : Error} {k : Enforcer σ}
      (h : e.removeFiltered sec name index values = (.error err, k)) : Refused e sec name k
  | updateRow {old new : Row} {result : Except Error Bool} {k : Enforcer σ}
      (h : e.updateRow sec name old new = (result, k)) (hr : result ≠ .ok true) : Refused e sec name k
  | clear {err : Error} {k : Enforcer σ} (h : e.clear = (.error err, k)) : Refused e sec name k

/-- **Refused changes.**  In a state in which links are built automatically and those of all managers are
the links of the rows, over a store whose operations leave what it holds alone when they fail: adding,
dropping or updating rows of a definition that fails or answers that nothing was done, and dropping rows
by their fields or all of them that fails, leaves the rows of all definitions, in their order, the answers
of all managers and what is stored as they were. -/
theorem refused_unchanged [PolicyStore σ] (hstore : PolicyStore.CleanFailures seen) {e k : Enforcer σ}
    (h : Reachable Made (fun _ _ => True) e) (hauto : e.config.autoLinks = true)
    (hconsistent : e.Consistent) (hsec : sec = "p" ∨ sec = "g")
    (hnarrow : ∀ d, e.model.find? "g" name = some d → d.fields.length ≤ 3)
    (hrefused : e.Refused sec name k) : e.Unchanged seen k := by
  have hvalid := h.valid fun _ hmade => hmade
  have hfollowed : ∀ d, e.model.find? sec name = some d → e.Followed sec name d := fun d hd =>
    hconsistent.followed hvalid hauto hsec hd fun hg => hnarrow d (hg ▸ hd)
  cases hrefused with
  | addRows hrun hr =>
    exact hconsistent.unchanged (hconsistent.addRows hvalid hauto hnarrow hrun) hvalid.managers
      (sameSetup_steps (steps_addRows hrun)) (sameRows_addRows hstore hfollowed hr hrun)
  | removeRows hrun hr =>
    exact hconsistent.unchanged (hconsistent.removeRows hvalid hauto hnarrow hrun) hvalid.managers
      (sameSetup_steps (steps_removeRows hrun)) (sameRows_removeRows hstore hfollowed hr hrun)
  | removeFiltered hrun =>
    exact hconsistent.unchanged (hconsistent.removeFiltered hvalid hauto hnarrow hrun) hvalid.managers
      (sameSetup_steps (steps_removeFiltered hrun)) (sameRows_removeFiltered hstore hfollowed hrun)
  | updateRow hrun hr =>
    exact hconsistent.unchanged
      (hconsistent.updateRow hvalid hauto hnarrow (fun hok => absurd hok hr) hrun) hvalid.managers
      (sameSetup_steps (steps_updateRow hrun)) (sameRows_updateRow hstore hfollowed hr hrun)
  | clear hrun => exact unchanged_clear_error hstore hrun

set_option maxRecDepth 20000 in
/-- With `a, b` stored, the second of the rows `b, c` and `c, a` closes a cycle when the first is linked
already; and a file in a directory that is missing cannot be cleared. -/
theorem refused_unchanged_cycle : ∃ e k l : Enforcer (MemoryStore ⊕ FileStore), ∃ err failure,
    e.model.rows "g" "g" = [["a", "b"]] ∧
      e.addRows "g" "g" [["b", "c"], ["c", "a"]] = (.error err, k) ∧
      e.clear = (.error failure, l) ∧
      e.Unchanged (Sum.map MemoryStore.lines FileStore.file) k ∧
      e.Unchanged (Sum.map MemoryStore.lines FileStore.file) l := by
  let model : Model := .build [.define "g" "g" "_, _"]
  let config : EnforcerConfig := { autoSave := false, rejectCycles := true }
  let start : Enforcer (MemoryStore ⊕ FileStore) :=
    { model, store := .inl {}, managers := [("g", { rejectCycles := true })], config }
  let linked : Enforcer (MemoryStore ⊕ FileStore) := { start with
    managers := [("g", { domains := oneLink noDomain "a" "b", rejectCycles := true })] }
  let before := { linked with model := model.modify "g" "g" (·.insertAll [["a", "b"]]) }
  let e := (before.enableAutoSave true).setStore (.inr { file := { directoryExists := false } })
  have h0 : Reachable Made (fun _ _ => True) start := .start ⟨model, .inl {}, config, ⟨_, rfl⟩, rfl⟩
  have hfollow : start.followRows "g" "g" .add [["a", "b"]] = (.ok (), linked) := rfl
  have hadd := perform_addRows (h0.valid fun _ h => h) (Or.inr rfl) rfl hfollow
    (persist_unsaved rfl _) (by decide) rfl
  have h1 := h0.step (.addRows "g" "g" [["a", "b"]]) trivial
  rw [hadd] at h1
  have h2 : Reachable Made (fun _ _ => True) e :=
    (h1.step (.enableAutoSave true) trivial).step (.setStore _) trivial
  have hvalid := h2.valid fun _ h => h
  have hconsistent : e.Consistent :=
    consistent_buildLinks (e := e) hvalid.model.toNamed (by unfold Managed; decide) rfl
  have hfails : ∃ err k, e.addRows "g" "g" [["b", "c"], ["c", "a"]] = (.error err, k) := by
    rw [addRows_fit rfl (hvalid.model.tidy "g" "g" _ rfl) (by decide) (by decide) (by decide)
      (by decide)]
    exact ⟨_, _, rfl⟩
  obtain ⟨err, k, hadd⟩ := hfails
  have hclear : ∃ failure l, e.clear = (.error failure, l) := ⟨_, _, rfl⟩
  obtain ⟨failure, l, hclear⟩ := hclear
  have hstore := MemoryStore.cleanFailures.sum FileStore.cleanFailures
  have hnarrow : ∀ d, e.model.find? "g" "g" = some d → d.fields.length ≤ 3 := by
    intro d hd
    rw [← Option.some.inj hd]
    decide
  exact ⟨e, k, l, err, failure, rfl, hadd, hclear,
    refused_unchanged hstore h2 rfl hconsistent (Or.inr rfl) hnarrow (.addRows hadd (by simp)),
    refused_unchanged hstore h2 rfl hconsistent (Or.inr rfl) hnarrow (.clear hclear)⟩

end Enforcer

end AccessControl
