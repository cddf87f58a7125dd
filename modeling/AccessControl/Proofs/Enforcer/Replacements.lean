import AccessControl.Proofs.Enforcer.Mirrored
/-!
# One row for another, in memory and in the store

An update puts the new row in the place of the old one twice: in the model, and as a line in the store.
The model counts rows, so a row that is put for itself stays; a store in memory drops the old line when
the new one is stored already, so a line that is put for itself is lost, while the answer is that the row
was updated.  Otherwise the line stands where the old one was, among the others in their order.

    after an update the store has the lines of the model but the old one
                                                                       (`mem_store_updateRow`)
    so both have the same lines again ↔ the old line is not in memory any more
                                                                       (`updateRow_stored`)
    a row that is put for itself is in memory and not in the store     (`not_always_updateRow_stored`)
-/

namespace AccessControl

variable {sec name : String} {old new : Row}

/-! ## Lines after a replacement -/

namespace Model

variable {m : Model} (hm : m.Named) (hsec : sec = "p" ∨ sec = "g") {d : Definition}
  (hd : m.find? sec name = some d) (hold : old ∈ d.rows)

include hm hsec hd hold

/-- The new line is there and the other lines stay; of the old one there may be a copy. -/
theorem Named.mem_lines_replace {line : Line} (hline : line ≠ name :: old) :
    line ∈ (m.modify sec name (·.replace old new)).lines ↔ line ∈ m.lines ∨ line = name :: new := by
  have hrows : (∃ row ∈ (d.replace old new).rows, line = name :: row) ↔
      line = name :: new ∨ ∃ row ∈ d.rows, line = name :: row := by
    have hperm := Definition.rows_replace hold new
    constructor
    · rintro ⟨row, hrow, rfl⟩
      rcases List.mem_cons.1 (hperm.mem_iff.1 hrow) with rfl | hrow
      · exact Or.inl rfl
      · exact Or.inr ⟨row, List.mem_of_mem_erase hrow, rfl⟩
    · rintro (rfl | ⟨row, hrow, rfl⟩)
      · exact ⟨new, hperm.mem_iff.2 List.mem_cons_self, rfl⟩
      · have hne : row ≠ old := fun heq => hline (heq ▸ rfl)
        exact ⟨row, hperm.mem_iff.2 (List.mem_cons_of_mem _ ((List.mem_erase_of_ne hne).2 hrow)), rfl⟩
  rw [hm.mem_lines_modify hsec hd (fun d => d.bare_replace old new), hrows,
    hm.mem_lines_split hsec hd, or_left_comm, or_comm]

theorem Named.new_mem_lines_replace :
    name :: new ∈ (m.modify sec name (·.replace old new)).lines := by
  rw [hm.mem_lines_modify hsec hd fun d => d.bare_replace old new]
  exact Or.inr ⟨new, (Definition.rows_replace hold new).mem_iff.2 List.mem_cons_self, rfl⟩

/-- Of a row that was there once, the line is still there exactly when it was put for itself. -/
theorem FiledByName.old_mem_lines_replace (hfiled : m.FiledByName) (hnodup : d.rows.Nodup) :
    name :: old ∈ (m.modify sec name (·.replace old new)).lines ↔ old = new := by
  have hbare := m.bare_modify sec name fun d => d.bare_replace old new
  rw [(hfiled.of_bare hbare).mem_lines_iff (hm.of_bare hbare) hsec (find?_modify_self hd _),
    (Definition.rows_replace hold new).mem_iff, List.mem_cons,
    or_iff_left hnodup.not_mem_erase]

end Model

namespace Enforcer

/-! ## What an update comes to -/

/-- A row is put for another when the links and the store take it. -/
theorem updateRow_eq {σ : Type} [PolicyStore σ] {e l s : Enforcer σ} {d : Definition}
    (hsec : sec = "p" ∨ sec = "g") (hd : e.model.find? sec name = some d) (hrow : d.Replaces old new)
    (hlink : e.relinkRow sec name old new = (.ok (), l))
    (hstore : l.persist (fun s => PolicyStore.update s sec name old new) = (.ok (), s)) :
    e.updateRow sec name old new =
      (.ok (d.rows.contains old),
        s.setRows (e.model.modify sec name (·.replace old new)) (d.rows.contains old)) := by
  have htest := (Model.replaces_iff d old new).2 ⟨hrow.there, hrow.free⟩
  unfold updateRow Model.find
  rw [hd]
  dsimp only
  rw [(d.checkRow_ok_iff new).2 hrow.arity]
  dsimp only
  rw [if_neg htest, hlink]
  dsimp only
  rw [hstore]
  dsimp only
  rw [(model_persist hstore).trans (model_relinkRow hlink),
    Model.replace_eq hsec hd hrow.arity hrow.there hrow.free]
  rfl

section

variable {e k : Enforcer MemoryStore} (hvalid : e.Valid) (hsec : sec = "p" ∨ sec = "g")
  (hsave : e.config.autoSave = true)

include hvalid hsec hsave

/-- An update that does not go through touches neither memory nor the store. -/
theorem relinked_updateRow_memory {result : Except Error Bool} (hr : result ≠ .ok true)
    (h : e.updateRow sec name old new = (result, k)) : e.Relinked k := by
  cases updates_of_updateRow h with
  | refused => exact ⟨e.managers, rfl⟩
  | unlinked _ _ hlink => exact relinked_relinkRow hlink
  | unstored _ _ hlink hstore =>
    -- the store does not fail
    obtain ⟨managers, rfl⟩ := relinked_relinkRow hlink
    rw [persist_update (by exact hsave)] at hstore
    exact absurd (Prod.mk.inj hstore).1 (by simp)
  | misfiled hother => exact absurd hsec hother
  | updated _ hd hrow =>
    have hold := ((hvalid.model.tidy sec name _ hd).contains_iff old).1 hrow.there
    exact absurd (congrArg Except.ok (List.contains_iff_mem.2 hold)) hr

omit hsec in
/-- An update that goes through replaces the row in memory and the line in the store. -/
theorem updated_memory (h : e.updateRow sec name old new = (.ok true, k)) :
    ∃ d, e.model.find? sec name = some d ∧ old ∈ d.rows ∧ (new ≠ old → new ∉ d.rows) ∧
      k.store = (e.store.update (name :: old) (name :: new)).2 ∧
      ∀ line, line ∈ k.model.lines ↔ line ∈ (e.model.modify sec name (·.replace old new)).lines := by
  generalize hresult : (Except.ok true : Except Error Bool) = result at h
  cases updates_of_updateRow h with
  | refused hr => exact absurd hresult.symm hr
  | unlinked | unstored | misfiled => simp at hresult
  | updated _ hd hrow hlink hstore =>
    have htidy := hvalid.model.tidy sec name _ hd
    obtain ⟨managers, rfl⟩ := relinked_relinkRow hlink
    rw [persist_update (by exact hsave)] at hstore
    refine ⟨_, hd, (htidy.contains_iff old).1 hrow.there,
      fun hne => (htidy.contains_eq_false_iff new).1 (hrow.free hne), ?_, fun line => ?_⟩
    · rw [store_setRows, ← (Prod.mk.inj hstore).2]
    · exact mem_lines_setRows _ (hvalid.model.toNamed.of_bare
        (e.model.bare_modify sec name fun d => d.bare_replace old new)) _ line

/-- After an update the store has the lines of the model but the old one. -/
theorem mem_store_updateRow (hsame : e.SameLines)
    (h : e.updateRow sec name old new = (.ok true, k)) (line : Line) :
    line ∈ k.store.lines ↔ line ∈ k.model.lines ∧ line ≠ name :: old := by
  obtain ⟨d, hd, hold, -, hstore, hlines⟩ := updated_memory hvalid hsave h
  have hnamed := hvalid.model.toNamed
  have hstored : name :: old ∈ e.store.lines :=
    (hsame _).2 ((hnamed.mem_lines_split hsec hd _).2 (Or.inr ⟨old, hold, rfl⟩))
  rw [hstore, MemoryStore.mem_update hstored, hsame, hlines]
  exact and_congr_left fun hline => (hnamed.mem_lines_replace hsec hd hold hline).symm

end

/-! ## One run -/

theorem filedByName_subjects (rows : List Row) (store : MemoryStore) :
    (subjects rows store).model.FiledByName := by
  have hempty : ({} : Model).FiledByName := fun sec _ name d hd => by simp [Model.find?] at hd
  have hkey : isKeyOf "p" "p" = true := by decide
  exact (hempty.define hkey "sub").of_bare
    (Model.bare_modify _ "p" "p" fun d => d.bare_insertAll rows)

theorem sameLines_subjects : (subjects [["a"]] (oneLine false)).SameLines := by
  have hlines : (subjects [["a"]] (oneLine false)).model.lines = [["p", "a"]] := by decide
  intro line
  rw [hlines]
  exact Iff.rfl

/-- The one row is put for itself, or another one for it. -/
theorem updateRow_subjects (new : String) : ∃ k,
    (subjects [["a"]] (oneLine false)).updateRow "p" "p" ["a"] [new] = (.ok true, k) := by
  let e := subjects [["a"]] (oneLine false)
  let d := (Definition.make "p" "p" "sub").insertAll [["a"]]
  have hd : e.model.find? "p" "p" = some d := rfl
  have htidy := (reachable_subjects.valid fun _ h => h).model.tidy "p" "p" d hd
  have hrow : d.Replaces ["a"] [new] := by
    refine ⟨rfl, (htidy.contains_iff _).2 (by decide), fun hne => ?_⟩
    rw [htidy.contains_eq_false_iff]
    exact fun hmem => hne (List.mem_singleton.1 hmem)
  exact ⟨_, updateRow_eq (Or.inl rfl) hd hrow (l := e) rfl (persist_update rfl)⟩

/-! ## Top theorem (proved from the lemmas above) -/

/-- **Updates in memory and in the store.**  In every state over a store in memory whose lines are those of
the model, while changes are saved at once, for every definition of policy or role rows and every pair of
rows: an update that does not go through touches neither.  After one that goes through the new line is in
memory, and the store has the lines in memory but the old one; the new line stands where the old one was,
among the others in their order, unless it was stored already.  So both have the same lines again exactly
when the old line is not in memory any more; where a name tells its section and no row is there twice,
exactly when the row was put for another one. -/
theorem updateRow_stored {e k : Enforcer MemoryStore}
    (h : Reachable Made (fun _ _ => True) e) (hsave : e.config.autoSave = true)
    {sec name : String} (hsec : sec = "p" ∨ sec = "g") (hsame : e.SameLines) {old new : Row}
    {result : Except Error Bool} (hrun : e.updateRow sec name old new = (result, k)) :
    (result ≠ .ok true → k.model = e.model ∧ k.store = e.store) ∧
    (result = .ok true → name :: new ∈ k.model.lines ∧
      (∀ line, line ∈ k.store.lines ↔ line ∈ k.model.lines ∧ line ≠ name :: old) ∧
      ∃ front back, e.store.lines = front ++ (name :: old) :: back ∧
        k.store.lines = front ++ (if name :: new ∈ e.store.lines then [] else [name :: new]) ++ back) ∧
    (k.SameLines ↔ (result = .ok true → name :: old ∉ k.model.lines)) ∧
    (e.model.FiledByName → (e.model.rows sec name).Nodup → result = .ok true →
      (k.SameLines ↔ old ≠ new) ∧ (name :: new ∈ e.store.lines ↔ old = new)) := by
  have hvalid := h.valid fun _ h => h
  have hnamed := hvalid.model.toNamed
  by_cases hr : result = .ok true
  · subst hr
    have hstored := mem_store_updateRow hvalid hsec hsave hsame hrun
    obtain ⟨d, hd, hold, hfree, hstore, hlines⟩ := updated_memory hvalid hsave hrun
    have holdline : name :: old ∈ e.store.lines :=
      (hsame _).2 ((hnamed.mem_lines_split hsec hd _).2 (Or.inr ⟨old, hold, rfl⟩))
    have hagain : k.SameLines ↔ name :: old ∉ k.model.lines := by
      constructor
      · intro hk hmem
        exact ((hstored _).1 ((hk _).2 hmem)).2 rfl
      · intro hgone line
        rw [hstored, and_iff_left_of_imp]
        rintro hline rfl
        exact hgone hline
    have hnew := (hlines _).2 (hnamed.new_mem_lines_replace hsec hd hold)
    refine ⟨fun hr => absurd rfl hr, fun _ => ⟨hnew, hstored, ?_⟩, ?_, fun hfiled hnodup _ => ?_⟩
    · rw [hstore]
      exact MemoryStore.update_split holdline _
    · rw [hagain]
      exact ⟨fun hgone _ => hgone, fun hgone => hgone rfl⟩
    · rw [Model.rows_of_find? hd] at hnodup
      rw [hagain, hlines, hfiled.old_mem_lines_replace hnamed hsec hd hold hnodup, hsame,
        hfiled.mem_lines_iff hnamed hsec hd]
      refine ⟨Iff.rfl, fun hthere => ?_, fun heq => heq ▸ hold⟩
      by_contra hne
      exact hfree (Ne.symm hne) hthere
  · obtain ⟨managers, rfl⟩ := relinked_updateRow_memory hvalid hsec hsave hr hrun
    exact ⟨fun _ => ⟨rfl, rfl⟩, fun htrue => absurd htrue hr,
      ⟨fun _ htrue => absurd htrue hr, fun _ => hsame⟩, fun _ _ htrue => absurd htrue hr⟩

/-- Another row takes the place of the one row. -/
theorem updateRow_stored_subjects : ∃ e k : Enforcer MemoryStore,
    Reachable Made (fun _ _ => True) e ∧ e.config.autoSave = true ∧
      e.SameLines ∧ e.updateRow "p" "p" ["a"] ["b"] = (.ok true, k) ∧ k.SameLines ∧
      k.store.lines = [["p", "b"]] := by
  obtain ⟨k, hrun⟩ := updateRow_subjects "b"
  obtain ⟨-, htrue, -, hfiled⟩ :=
    updateRow_stored reachable_subjects rfl (Or.inl rfl) sameLines_subjects hrun
  have hsame := (hfiled (filedByName_subjects _ _) (by decide) rfl).1.2 (by decide)
  obtain ⟨-, -, front, back, hbefore, hafter⟩ := htrue rfl
  obtain ⟨rfl, rfl⟩ : front = [] ∧ back = [] := by
    have hone : [["p", "a"]] = front ++ ["p", "a"] :: back := hbefore
    cases front with
    | nil => exact ⟨rfl, (List.cons.inj hone).2.symm⟩
    | cons line rest => simp at hone
  exact ⟨_, k, reachable_subjects, rfl, sameLines_subjects, hrun, hsame, hafter⟩

/-- A row that is put for itself stays in memory, and its line is lost. -/
theorem not_always_updateRow_stored : ¬ ∀ (e k : Enforcer MemoryStore) (sec name : String)
    (old new : Row) (result : Except Error Bool),
    Reachable Made (fun _ _ => True) e → e.config.autoSave = true →
      (sec = "p" ∨ sec = "g") → e.SameLines → e.updateRow sec name old new = (result, k) →
        k.SameLines := by
  intro hall
  obtain ⟨k, hrun⟩ := updateRow_subjects "a"
  have hvalid := reachable_subjects.valid fun _ h => h
  have hsame := hall _ k "p" "p" ["a"] ["a"] _ reachable_subjects rfl (Or.inl rfl) sameLines_subjects hrun
  obtain ⟨d, hd, hold, -, -, hlines⟩ := updated_memory hvalid rfl hrun
  have hmemory : ["p", "a"] ∈ k.model.lines :=
    (hlines _).2 (hvalid.model.toNamed.new_mem_lines_replace (Or.inl rfl) hd hold)
  have hstored := (mem_store_updateRow hvalid (Or.inl rfl) rfl sameLines_subjects
    hrun ["p", "a"]).1 ((hsame _).2 hmemory)
  exact hstored.2 rfl

end Enforcer

end AccessControl
