import AccessControl.Proofs.Enforcer.Replacements
/-!
# Rows with certain fields, in memory and in the store

A removal by fields tests rows twice: in the model, and as lines in the store, where the lines of a
definition are those with its name.  Both tests agree on every list of values but the empty one: no values
drop no row in memory and every line of the definition in the store.  The store is changed before the links
are dropped, so what happens to rows does not depend on whether links can be.

    the store loses the lines that match, also with no values          (`removeFiltered_memory`)
    both have the same lines again ↔ there are values or no rows       (`removeFiltered_stored`)
    no values leave the rows and drop the lines                        (`not_always_removeFiltered_stored`)
-/

namespace AccessControl

variable {sec name : String} {index : Nat} {values : List String}

namespace Model

/-- The lines that are left: those elsewhere, and all of the definition if there are no values. -/
theorem Named.mem_lines_removeFiltered {m k : Model} (hm : m.Named) (hsec : sec = "p" ∨ sec = "g")
    {d : Definition} (hd : m.find? sec name = some d) {removed : List Row}
    (h : m.removeFiltered sec name index values = .ok (k, removed)) (line : Line) :
    line ∈ k.lines ↔ m.LineElsewhere sec name line ∨ (∃ row ∈ d.rows, line = name :: row) ∧
      (values = [] ∨ ¬ MemoryStore.lineMatches name index values line = true) := by
  unfold removeFiltered at h
  rw [findRows_eq hsec hd] at h
  dsimp only at h
  split at h
  · next hempty =>
    rw [← (Prod.mk.inj (Except.ok.inj h)).1, hm.mem_lines_split hsec hd,
      and_iff_left (Or.inl (List.isEmpty_iff.1 hempty))]
  · next hvalues =>
    rw [← (Prod.mk.inj (Except.ok.inj h)).1,
      hm.mem_lines_modify hsec hd fun d => d.bare_eraseWhere (rowMatches index values),
      or_iff_right (a := values = []) (mt List.isEmpty_iff.2 hvalues)]
    refine or_congr_right ⟨?_, ?_⟩
    · rintro ⟨row, hrow, rfl⟩
      rw [Definition.rows_eraseWhere, List.mem_filter, Bool.not_eq_true', ← Bool.not_eq_true] at hrow
      rw [MemoryStore.lineMatches_cons]
      exact ⟨⟨row, hrow.1, rfl⟩, hrow.2⟩
    · rintro ⟨⟨row, hrow, rfl⟩, hline⟩
      rw [MemoryStore.lineMatches_cons] at hline
      refine ⟨row, ?_, rfl⟩
      rw [Definition.rows_eraseWhere, List.mem_filter, Bool.not_eq_true', ← Bool.not_eq_true]
      exact ⟨hrow, hline⟩

end Model

namespace Enforcer

/-- Whatever a removal answers, the lines that match are gone from the store, and the model is what the
removal makes of it. -/
theorem removeFiltered_memory {e k : Enforcer MemoryStore} (hvalid : e.Valid)
    (hsec : sec = "p" ∨ sec = "g") (hsave : e.config.autoSave = true) {d : Definition}
    (hd : e.model.find? sec name = some d) {result : Except Error Bool}
    (h : e.removeFiltered sec name index values = (result, k)) :
    ∃ m removed, e.model.removeFiltered sec name index values = .ok (m, removed) ∧
      k.store = (e.store.removeFiltered name index values).2 ∧
      ∀ line, line ∈ k.model.lines ↔ line ∈ m.lines := by
  unfold Enforcer.removeFiltered Model.find at h
  rw [hd, persist_removeFiltered hsave] at h
  dsimp only at h
  split at h
  · next herr => exact absurd hsec (not_section_of_removeFiltered hd herr)
  · next m hremove =>
    obtain ⟨-, rfl⟩ := Prod.mk.inj h
    exact ⟨m, [], hremove, rfl, fun _ => Iff.rfl⟩
  · next m removed _ hremove =>
    have hm : m.Named := ((Model.evolves_removeFiltered hremove).wellFormed hvalid.model).toNamed
    refine ⟨m, removed, hremove, ?_⟩
    split at h
    · next hunlink =>
      obtain ⟨managers, rfl⟩ := relinked_followRows hunlink
      obtain ⟨-, rfl⟩ := Prod.mk.inj h
      exact ⟨rfl, fun _ => Iff.rfl⟩
    · next hunlink =>
      obtain ⟨managers, rfl⟩ := relinked_followRows hunlink
      obtain ⟨-, rfl⟩ := Prod.mk.inj h
      exact ⟨rfl, mem_lines_setRows _ hm true⟩

/-! ## Top theorem (proved from the lemmas above) -/

/-- **Removals by fields in memory and in the store.**  In every state over a store in memory whose lines
are those of the model, while changes are saved at once, for every definition of policy or role rows, every
index and every list of values, whatever the removal answers: the store has its lines but those that match,
and memory has these and, if there are no values, all rows of the definition, and lines of another
definition with the same name that match.  So where a name tells its section, both have the same lines
again exactly when there are values or the definition has no rows. -/
theorem removeFiltered_stored {e k : Enforcer MemoryStore}
    (h : Reachable Made (fun _ _ => True) e) (hsave : e.config.autoSave = true)
    {sec name : String} (hsec : sec = "p" ∨ sec = "g") {d : Definition}
    (hd : e.model.find? sec name = some d) (hsame : e.SameLines) {index : Nat} {values : List String}
    {result : Except Error Bool} (hrun : e.removeFiltered sec name index values = (result, k)) :
    (∀ line, line ∈ k.store.lines ↔
      line ∈ e.store.lines ∧ ¬ MemoryStore.lineMatches name index values line = true) ∧
    (∀ line, line ∈ k.model.lines ↔ line ∈ k.store.lines ∨
      MemoryStore.lineMatches name index values line = true ∧
        (values = [] ∧ (∃ row ∈ d.rows, line = name :: row) ∨ e.model.LineElsewhere sec name line)) ∧
    (e.model.FiledByName → (k.SameLines ↔ values ≠ [] ∨ d.rows = [])) := by
  have hvalid := h.valid fun _ h => h
  have hnamed := hvalid.model.toNamed
  obtain ⟨m, removed, hremove, hstore, hmodel⟩ := removeFiltered_memory hvalid hsec hsave hd hrun
  have hstored : ∀ line, line ∈ k.store.lines ↔
      line ∈ e.store.lines ∧ ¬ MemoryStore.lineMatches name index values line = true := by
    intro line
    rw [hstore, MemoryStore.mem_removeFiltered]
  have hlines : ∀ line, line ∈ k.model.lines ↔ line ∈ k.store.lines ∨
      MemoryStore.lineMatches name index values line = true ∧
        (values = [] ∧ (∃ row ∈ d.rows, line = name :: row) ∨ e.model.LineElsewhere sec name line) := by
    intro line
    rw [hmodel, hnamed.mem_lines_removeFiltered hsec hd hremove, hstored, hsame,
      hnamed.mem_lines_split hsec hd]
    by_cases hline : MemoryStore.lineMatches name index values line = true <;>
      simp [hline, or_comm, and_comm]
  refine ⟨hstored, hlines, fun hfiled => ⟨fun hk => ?_, fun hor line => ?_⟩⟩
  · refine or_iff_not_imp_left.2 fun hempty => List.eq_nil_iff_forall_not_mem.2 fun row hrow => ?_
    -- without values every line of the definition matches, and no row does
    obtain rfl := not_not.1 hempty
    have hmatches : MemoryStore.lineMatches name index [] (name :: row) = true :=
      MemoryStore.lineMatches_cons name index [] row
    have hmemory := (hlines (name :: row)).2 (Or.inr ⟨hmatches, Or.inl ⟨rfl, row, hrow, rfl⟩⟩)
    exact ((hstored _).1 ((hk _).2 hmemory)).2 hmatches
  · rw [hlines, or_iff_left]
    rintro ⟨hmatches, ⟨hempty, row, hrow, -⟩ | helsewhere⟩
    · rcases hor with hvalues | hrows
      · exact hvalues hempty
      · simp [hrows] at hrow
    · obtain ⟨row, rfl⟩ := MemoryStore.eq_cons_of_lineMatches hmatches
      exact hfiled.not_lineElsewhere hsec hd row helsewhere

/-- The row with a value goes from both. -/
theorem removeFiltered_stored_subjects : ∃ e k : Enforcer MemoryStore,
    Reachable Made (fun _ _ => True) e ∧ e.config.autoSave = true ∧
      e.SameLines ∧ (e.removeFiltered "p" "p" 0 ["a"]).2 = k ∧ k.SameLines ∧
      ["p", "a"] ∉ k.store.lines := by
  let e := subjects [["a"]] (oneLine false)
  obtain ⟨hstored, -, hfiled⟩ := removeFiltered_stored reachable_subjects rfl (Or.inl rfl) rfl
    sameLines_subjects (Prod.mk.eta (p := e.removeFiltered "p" "p" 0 ["a"])).symm
  refine ⟨e, _, reachable_subjects, rfl, sameLines_subjects, rfl,
    (hfiled (filedByName_subjects _ _)).2 (Or.inl (by decide)), fun hmem => ?_⟩
  exact ((hstored _).1 hmem).2 rfl

/-- No values leave the row in memory, and its line is lost. -/
theorem not_always_removeFiltered_stored : ¬ ∀ (e k : Enforcer MemoryStore) (sec name : String)
    (d : Definition) (index : Nat) (values : List String) (result : Except Error Bool),
    Reachable Made (fun _ _ => True) e → e.config.autoSave = true →
      (sec = "p" ∨ sec = "g") → e.model.find? sec name = some d → e.SameLines →
        e.removeFiltered sec name index values = (result, k) → k.SameLines := by
  intro hall
  let e := subjects [["a"]] (oneLine false)
  have hsame : (e.removeFiltered "p" "p" 0 []).2.SameLines :=
    hall e _ "p" "p" _ 0 [] _ reachable_subjects rfl (Or.inl rfl) rfl sameLines_subjects rfl
  have hvalid := reachable_subjects.valid fun _ h => h
  obtain ⟨m, removed, hremove, hstore, hmodel⟩ := removeFiltered_memory hvalid (Or.inl rfl) rfl rfl
    (Prod.mk.eta (p := e.removeFiltered "p" "p" 0 [])).symm
  have hmemory : ["p", "a"] ∈ (e.removeFiltered "p" "p" 0 []).2.model.lines :=
    (hmodel _).2 ((hvalid.model.toNamed.mem_lines_removeFiltered (Or.inl rfl) rfl hremove _).2
      (Or.inr ⟨⟨["a"], by decide, rfl⟩, Or.inl rfl⟩))
  have hstored := (hsame _).2 hmemory
  rw [hstore, MemoryStore.mem_removeFiltered] at hstored
  exact hstored.2 rfl

end Enforcer

end AccessControl
