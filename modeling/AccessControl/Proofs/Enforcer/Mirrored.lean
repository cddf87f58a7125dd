import AccessControl.Proofs.Enforcer.ConsistentRuns
import AccessControl.Proofs.Enforcer.Durable
import AccessControl.Proofs.Enforcer.RoleBased
import AccessControl.Proofs.Model.Lines
/-!
# The store mirrors memory

While changes are saved at once from the start, and rows are added and dropped, cleared, saved and loaded
as a whole, the lines of a store in memory are those of the model: what is new in memory is new in the
store, so that no batch overlaps with what is stored, and what is old in memory is stored.  Nothing fails
between the store and the model: a new row is stored after its links were taken, and the links of an old
row can always be dropped.

    e.Mirrored → (e.perform c).2.Mirrored                              (`Mirrored.perform`)
    the lines stored, but for empty ones, are those in memory          (`stored_iff_lines`)
-/

namespace AccessControl

namespace Enforcer

variable {sec name : String}

/-! ## Parts of a change -/

section

variable {σ : Type}

theorem mem_lines_setRows (e : Enforcer σ) {m : Model} (hm : m.Named) (changed : Bool) (line : Line) :
    line ∈ (e.setRows m changed).model.lines ↔ line ∈ m.lines := by
  unfold setRows
  dsimp only
  split
  · exact hm.mem_lines_sortBySubject line
  · exact Iff.rfl

/-- Every role row has a link, where links follow rows. -/
def RoleRowsLinked (e : Enforcer σ) : Prop :=
  e.config.autoLinks = true → ∀ name d, e.model.find? "g" name = some d →
    ∀ row ∈ d.rows, ∃ l, linkOf? row = some l

/-- A change of the rows of a definition, by rows that were there or have links. -/
theorem RoleRowsLinked.change {e s k : Enforcer σ} (h : e.RoleRowsLinked) (hconfig : k.config = e.config)
    {f : Definition → Definition} (hk : k = s.setRows (e.model.modify sec name f) true)
    (hrows : sec = "g" → e.config.autoLinks = true → ∀ d, e.model.find? sec name = some d →
      ∀ row ∈ (f d).rows, row ∈ d.rows ∨ ∃ l, linkOf? row = some l) : k.RoleRowsLinked := by
  intro hauto other x hx row hrow
  rw [hconfig] at hauto
  rw [hk, find?_setRows, Model.find?_modify] at hx
  split at hx
  · next hmine =>
    obtain ⟨rfl, rfl⟩ := hmine
    obtain ⟨d, hd, rfl⟩ := Option.map_eq_some_iff.1 hx
    exact (hrows rfl hauto d hd row hrow).elim (h hauto name d hd row) id
  · exact h hauto other x hx row hrow

/-- Links that were added are those of rows. -/
theorem roleRowsLinked_followRows {e k : Enforcer σ} (hvalid : e.Valid) (hauto : e.config.autoLinks = true)
    {rows : List Row} (h : e.followRows "g" name .add rows = (.ok (), k)) :
    ∀ row ∈ rows, ∃ l, linkOf? row = some l := by
  cases hm : e.managers.find name with
  | none => simp [followRows, linkRows, hauto, hm] at h
  | some m =>
    rw [followRows_eq hauto hm] at h
    have hbatch : m.applyBatch .add rows = (.ok (), (m.applyBatch .add rows).2) :=
      Prod.ext (Prod.mk.inj h).1 rfl
    exact (hvalid.managers name m hm).linkOf?_of_applyRows (RoleManager.applyBatch_ok_iff.1 hbatch)

/-- Links of rows that have one can be dropped. -/
theorem followRows_remove {e : Enforcer σ} (hmanager : sec = "g" → name ∈ e.managers.keys)
    {rows : List Row}
    (hrows : sec = "g" → e.config.autoLinks = true → ∀ row ∈ rows, ∃ l, linkOf? row = some l) :
    ∃ k, e.followRows sec name .remove rows = (.ok (), k) := by
  by_cases hfollow : sec = "g" ∧ e.config.autoLinks = true
  · obtain ⟨rfl, hauto⟩ := hfollow
    obtain ⟨m, hm⟩ := Table.exists_find (hmanager rfl)
    obtain ⟨l, hl⟩ := m.applyRows_remove (hrows rfl hauto)
    rw [followRows_eq hauto hm, RoleManager.applyBatch_ok_iff.2 hl]
    exact ⟨_, rfl⟩
  · unfold followRows
    rw [if_neg (by simpa using hfollow)]
    exact ⟨e, rfl⟩

theorem Managed.mem_keys {e : Enforcer σ} (h : e.Managed) (hnamed : e.model.Named) {d : Definition}
    (hd : e.model.find? "g" name = some d) : name ∈ e.managers.keys :=
  h name ((hnamed.mem_roleNames name).2 ⟨d, hd⟩)

end

/-! ## The mirror -/

/-- The lines of the store are those of the model, and what keeps them so. -/
structure Mirrored (e : Enforcer MemoryStore) : Prop where
  valid : e.Valid
  autoSave : e.config.autoSave = true
  filed : e.model.FiledByName
  managed : e.Managed
  linked : e.RoleRowsLinked
  lines : ∀ line, line ∈ e.store.lines ∧ line ≠ [] ↔ line ∈ e.model.lines

theorem Mirrored.of_sameSetup {e k : Enforcer MemoryStore} (h : e.Mirrored) (hk : e.SameSetup k)
    (hlinked : k.RoleRowsLinked)
    (hlines : ∀ line, line ∈ k.store.lines ∧ line ≠ [] ↔ line ∈ k.model.lines) : k.Mirrored where
  valid := hk.valid h.valid
  autoSave := by
    rw [hk.config]
    exact h.autoSave
  filed := h.filed.of_bare hk.model.bare
  managed := hk.managed h.managed
  linked := hlinked
  lines := hlines

/-- A change that leaves rows and lines. -/
theorem Mirrored.same {e k : Enforcer MemoryStore} (h : e.Mirrored) (hk : e.SameSetup k)
    (hmodel : k.model = e.model) (hstore : k.store.lines = e.store.lines) : k.Mirrored := by
  refine h.of_sameSetup hk ?_ ?_
  · unfold RoleRowsLinked
    rw [hk.config, hmodel]
    exact h.linked
  · rw [hmodel, hstore]
    exact h.lines

section

variable {e k : Enforcer MemoryStore} (h : e.Mirrored)

include h

/-- The lines stored with the name of a definition are its rows. -/
theorem Mirrored.mem_store_iff (hsec : sec = "p" ∨ sec = "g") {d : Definition}
    (hd : e.model.find? sec name = some d) (row : Row) : name :: row ∈ e.store.lines ↔ row ∈ d.rows := by
  rw [← h.filed.mem_lines_iff h.valid.model.toNamed hsec hd, ← h.lines,
    and_iff_left (List.cons_ne_nil name row)]

theorem Mirrored.addRows (hsec : sec = "p" ∨ sec = "g") {rows : List Row}
    {result : Except Error Bool} (hrun : e.addRows sec name rows = (result, k)) : k.Mirrored := by
  have hsetup := sameSetup_steps (steps_addRows hrun)
  by_cases hr : result = .ok true
  · subst hr
    obtain ⟨d, l, s, hadded⟩ := addRows_true hrun
    have hd := hadded.found
    have htidy := h.valid.model.tidy sec name d hd
    have hnamed := h.valid.model.toNamed
    have hinserted : (e.model.modify sec name (·.insertAll rows)).Named :=
      hnamed.of_bare (e.model.bare_modify sec name fun d => d.bare_insertAll rows)
    -- what is new in memory is new in the store
    have hnew : ∀ row ∈ rows, name :: row ∉ e.store.lines := fun row hrow hstored =>
      (htidy.contains_eq_false_iff row).1 (hadded.fresh.new row hrow) ((h.mem_store_iff hsec hd row).1 hstored)
    refine h.of_sameSetup hsetup (h.linked.change hsetup.config hadded.after fun hg hauto x hx row hrow => ?_)
      fun line => ?_
    · subst hg
      rcases List.mem_append.1 ((x.rows_insertAll rows).mem_iff.1 hrow) with hrow | hrow
      · exact Or.inr (roleRowsLinked_followRows h.valid hauto hadded.linked row hrow)
      · exact Or.inl hrow
    · rw [hadded.store_memory h.autoSave, mem_storeRows hnew, hadded.after, mem_lines_setRows _ hinserted,
        h.filed.mem_lines_insertAll hnamed hsec hd, ← h.lines, or_and_right]
      refine or_congr_right (and_iff_left_of_imp fun hline => ?_)
      obtain ⟨row, -, rfl⟩ := List.mem_map.1 hline
      exact List.cons_ne_nil name row
  · obtain ⟨managers, rfl⟩ := relinked_addRows_memory hsec h.autoSave hr hrun
    exact h.same hsetup rfl rfl

theorem Mirrored.removeRows (hsec : sec = "p" ∨ sec = "g") {rows : List Row}
    {result : Except Error Bool} (hrun : e.removeRows sec name rows = (result, k)) : k.Mirrored := by
  have hsetup := sameSetup_steps (steps_removeRows hrun)
  have hnamed := h.valid.model.toNamed
  by_cases hr : result = .ok true
  · subst hr
    obtain ⟨d, s, l, hremoved⟩ := removeRows_true hrun
    have hd := hremoved.found
    have htidy := h.valid.model.tidy sec name d hd
    have herased : (e.model.modify sec name (·.eraseAll rows)).Named :=
      hnamed.of_bare (e.model.bare_modify sec name fun d => d.bare_eraseAll rows)
    -- what is old in memory is stored
    have hold : ∀ row ∈ rows, name :: row ∈ e.store.lines := fun row hrow =>
      (h.mem_store_iff hsec hd row).2 ((htidy.contains_iff row).1 (hremoved.old row hrow))
    refine h.of_sameSetup hsetup (h.linked.change hsetup.config hremoved.after fun _ _ x hx row hrow => ?_)
      fun line => ?_
    · rw [(h.valid.model.tidy sec name x hx).rows_eraseAll] at hrow
      exact Or.inl (List.mem_of_mem_filter hrow)
    · rw [hremoved.store_memory h.autoSave, mem_unstoreRows hold, hremoved.after,
        mem_lines_setRows _ herased, h.filed.mem_lines_eraseAll hnamed hsec hd htidy, ← h.lines,
        and_right_comm]
  · have heq := eq_removeRows_memory hsec h.autoSave (fun d hd store hrows => by
      refine followRows_remove (fun hg => ?_) fun hg hauto row hrow => ?_
      · subst hg
        exact h.managed.mem_keys hnamed hd
      · subst hg
        exact h.linked hauto name d hd row
          (((h.valid.model.tidy _ name d hd).contains_iff row).1 (hrows row hrow))) hr hrun
    rwa [heq]

theorem Mirrored.clear {result : Except Error Unit} (hrun : e.clear = (result, k)) : k.Mirrored := by
  have hsetup := sameSetup_clear hrun
  have hpersist : e.persist PolicyStore.clear =
      (.ok (), { e with store := { e.store with lines := [], nodup := List.nodup_nil } }) := by
    unfold persist
    rw [if_pos h.autoSave]
    rfl
  unfold Enforcer.clear at hrun
  rw [hpersist] at hrun
  obtain ⟨-, rfl⟩ := Prod.mk.inj hrun
  refine h.of_sameSetup hsetup (fun _ other x hx => ?_) fun line => ?_
  · rw [Model.find?_clear _ (Or.inr rfl)] at hx
    obtain ⟨d, -, rfl⟩ := Option.map_eq_some_iff.1 hx
    simp [Definition.clear]
  · simp [h.valid.model.toNamed.not_mem_lines_clear]

theorem Mirrored.save {result : Except Error Unit} (hrun : e.save = (result, k)) : k.Mirrored := by
  have hsetup := sameSetup_save hrun
  unfold Enforcer.save at hrun
  split at hrun
  · obtain ⟨-, rfl⟩ := Prod.mk.inj hrun
    exact h
  · obtain ⟨-, rfl⟩ := Prod.mk.inj hrun
    refine h.of_sameSetup hsetup h.linked fun line => ?_
    show line ∈ distinct e.model.lines ∧ line ≠ [] ↔ line ∈ e.model.lines
    rw [mem_distinct]
    exact and_iff_left_of_imp h.valid.model.toNamed.ne_nil_of_mem_lines

end

/-! ## Loads -/

/-- A model that was loaded holds the lines of the store. -/
theorem mem_lines_load {m k : Model} (hm : m.WellFormed) (hfiled : m.FiledByName) {s t : MemoryStore}
    (h : PolicyStore.load s m.clear = (.ok (), k, t)) (line : Line) :
    line ∈ k.lines ↔ line ∈ s.lines ∧ line ≠ [] := by
  unfold PolicyStore.load PolicyStore.finishLoad at h
  split at h
  · simp at h
  · next l hlines =>
    have hk : l = k := congrArg (fun x => x.2.1) h
    rw [← hk, (hfiled.of_bare m.bare_clear).mem_lines_addLines hm.clear hlines,
      or_iff_right (hm.toNamed.not_mem_lines_clear line)]
    exact Iff.rfl

/-- A model that was taken has no row that cannot be linked. -/
theorem roleRowsLinked_install_ok {σ : Type} {e k : Enforcer σ} {m : Model} (hm : m.Named)
    (h : e.install m = (.ok (), k)) : k.RoleRowsLinked := by
  intro hauto name d hd
  unfold install at h
  dsimp only at h
  split at h
  · split at h
    · next hlinks =>
      obtain ⟨-, rfl⟩ := Prod.mk.inj h
      have hmodel := congrArg (fun k : Enforcer σ => k.model) (Prod.mk.inj hlinks).2.symm
      rw [hmodel] at hd
      obtain ⟨settings, htracks⟩ :=
        tracks_buildLinks_ok (hm.of_bare (evolves_sorted m).bare) hlinks name d hd
      exact htracks.linked
    · simp at h
  · next hoff =>
    rw [← (Prod.mk.inj h).2] at hauto
    exact absurd hauto hoff

/-- A load that goes through makes memory what the store is. -/
theorem mirrored_load_ok {e k : Enforcer MemoryStore} (hvalid : e.Valid)
    (hsave : e.config.autoSave = true) (hfiled : e.model.FiledByName) (hmanaged : e.Managed)
    (hrun : e.load = (.ok (), k)) : k.Mirrored := by
  have hsetup := sameSetup_load hrun
  have hstore : k.store.lines = e.store.lines := by
    have hlines := e.lines_load
    rwa [hrun] at hlines
  rcases hread : PolicyStore.load e.store e.model.clear with ⟨_ | _, m, t⟩
  · simp [Enforcer.load, hread, finishLoad] at hrun
  · have hloaded : (PolicyStore.load e.store e.model.clear).2.1.WellFormed :=
      (evolves_load _ _ _ _).wellFormed hvalid.model.clear
    rw [hread] at hloaded
    have hm : m.Named := hloaded.toNamed
    have hinstall : ({ e with store := t } : Enforcer MemoryStore).install m = (.ok (), k) := by
      unfold Enforcer.load at hrun
      rwa [hread] at hrun
    refine ⟨hsetup.valid hvalid, hsetup.config ▸ hsave, hfiled.of_bare hsetup.model.bare,
      hsetup.managed hmanaged, roleRowsLinked_install_ok hm hinstall, fun line => ?_⟩
    rw [hstore, model_install_ok hinstall, hm.mem_lines_sorted, mem_lines_load hvalid.model hfiled hread]

/-- A load that fails leaves the model, whether links follow rows or not. -/
theorem model_finishLoad_error {σ : Type} {e k : Enforcer σ} {loaded : Except Error Unit × Model × σ}
    {err : Error} (h : e.finishLoad loaded = (.error err, k)) : k.model = e.model := by
  cases hauto : e.config.autoLinks with
  | true => exact (finishLoad_error hauto h).1
  | false =>
    match loaded, h with
    | (.error _, m, store), h => rw [← (Prod.mk.inj h).2]
    | (.ok (), m, store), h => simp [finishLoad, install, hauto] at h

theorem Mirrored.load {e k : Enforcer MemoryStore} (h : e.Mirrored) {result : Except Error Unit}
    (hrun : e.load = (result, k)) : k.Mirrored := by
  match result, hrun with
  | .ok (), hrun =>
    exact mirrored_load_ok h.valid h.autoSave h.filed h.managed hrun
  | .error err, hrun =>
    have hstore := e.lines_load
    rw [hrun] at hstore
    exact h.same (sameSetup_load hrun) (model_finishLoad_error hrun) hstore

/-! ## Runs -/

/-- A new enforcer over a store in memory, of a model that was read from a text, that saves changes at
once. -/
def MadeSaving (e : Enforcer MemoryStore) : Prop :=
  ∃ text model store config, Model.ofText text = .ok model ∧ config.autoSave = true ∧
    Enforcer.make model store config = .ok e

/-- The calls that add and drop rows of policies and roles, or clear, save and load all rows. -/
def Call.Whole : Call MemoryStore → Prop
  | .addRows sec _ _ | .removeRows sec _ _ => sec = "p" ∨ sec = "g"
  | .clear | .save | .load => True
  | _ => False

theorem MadeSaving.mirrored {e : Enforcer MemoryStore} (h : e.MadeSaving) : e.Mirrored := by
  obtain ⟨text, model, store, config, htext, hsave, hmake⟩ := h
  obtain ⟨heffects, hload⟩ := make_ok hmake
  let start : Enforcer MemoryStore := { model, store, config }
  exact mirrored_load_ok (valid_start (Model.built_ofText htext).wellFormed heffects start) hsave
    (Model.filedByName_ofText htext) (managed_initManagers start) hload

theorem Mirrored.perform {e : Enforcer MemoryStore} (h : e.Mirrored) {c : Call MemoryStore}
    (hc : c.Whole) : (e.perform c).2.Mirrored := by
  cases c with
  | addRows => exact h.addRows hc rfl
  | removeRows => exact h.removeRows hc rfl
  | clear => exact h.clear rfl
  | save => exact h.save rfl
  | load => exact h.load rfl
  | _ => exact hc.elim

theorem Reachable.mirrored {e : Enforcer MemoryStore}
    (h : Reachable MadeSaving (fun _ c => c.Whole) e) : e.Mirrored := by
  induction h with
  | start h => exact h.mirrored
  | step c _ hc ih => exact ih.perform hc

/-! ## Top theorem (proved from the lemmas above) -/

/-- **The store mirrors memory.**  Over a store in memory, when changes are saved at once from the start:
after any run of additions and removals of policy and role rows, in batches of any size and whether they
are accepted, refused or fail, of clears, saves and loads, the lines stored, but for empty ones, are
those of the rows in memory.  So a load, whether it goes through or fails, leaves the rows as they are. -/
theorem stored_iff_lines {e : Enforcer MemoryStore}
    (h : Reachable MadeSaving (fun _ c => c.Whole) e) (line : Line) :
    (line ∈ e.store.lines ∧ line ≠ [] ↔ line ∈ e.model.lines) ∧
      (line ∈ e.load.2.model.lines ↔ line ∈ e.model.lines) := by
  refine ⟨h.mirrored.lines line, ?_⟩
  have hloaded : e.load.2.Mirrored := h.mirrored.load rfl
  rw [← hloaded.lines, e.lines_load, h.mirrored.lines]

set_option maxRecDepth 20000 in
/-- A batch comes in, and a load finds it in the store. -/
theorem stored_iff_lines_rbac : ∃ e : Enforcer MemoryStore,
    Reachable MadeSaving (fun _ c => c.Whole) e ∧
      ["p", "bob", "data", "read"] ∈ e.model.lines ∧ ["p", "bob", "data", "read"] ∈ e.store.lines ∧
      ["p", "bob", "data", "read"] ∈ e.load.2.model.lines := by
  let rows : List Row := [["ann", "data", "read"], ["bob", "data", "read"]]
  let line : Line := ["p", "bob", "data", "read"]
  let start : Enforcer MemoryStore := { model := rbacModel, store := {}, managers := [("g", {})] }
  let e : Enforcer MemoryStore := { start with
    model := rbacModel.modify "p" "p" (·.insertAll rows)
    store := { lines := rows.map ("p" :: ·) } }
  have h0 : Reachable MadeSaving (fun _ c => c.Whole) start :=
    .start ⟨rbacText, rbacModel, {}, {}, ofText_rbacText, rfl, rfl⟩
  have hadd : (start.perform (.addRows "p" "p" rows)).2 = e :=
    perform_addRows h0.mirrored.valid (Or.inl rfl) rfl rfl (persist_storeRows rfl) (by decide) rfl
  have h1 := h0.step (.addRows "p" "p" rows) (Or.inl rfl)
  rw [hadd] at h1
  have hline : line ∈ e.model.lines := by decide
  obtain ⟨hstored, hloaded⟩ := stored_iff_lines h1 line
  exact ⟨e, h1, hline, (hstored.2 hline).1, hloaded.2 hline⟩

end Enforcer

end AccessControl
