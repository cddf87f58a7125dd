import AccessControl.Proofs.Model.Build
/-!
# Runs of operations on a model

Every mutator adjusts the index of a definition by hand, beside its rows.  Whatever operations follow each
other, the index stays that of the rows, rows fit their definition, and no row is there twice unless
duplicates were asked for; an operation that is refused leaves the model as it is.

    m.refuses operation → m.apply operation = m                        (`apply_of_refuses`)
    m.DistinctRows → (m.run operations).DistinctRows                   (`DistinctRows.run`)
    the rows and the index of a definition after any run               (`account_run`)
-/

namespace AccessControl

namespace Model

/-- Whether an operation adds rows that may be there already. -/
def Operation.mayRepeat : Operation → Bool
  | .addDuplicates .. => true
  | _ => false

/-! ## Operations that are refused -/

/-- Whether a change was refused: it failed, or its answer is that nothing changed. -/
def isRefusal : Except Error (Model × Bool) → Bool
  | .ok (_, changed) => !changed
  | .error _ => true

/-- Whether a model refuses an operation. -/
def refuses (m : Model) : Operation → Bool
  | .define sec key value => !(m.define sec key value).2
  | .add sec name row => isRefusal (m.add sec name row)
  | .addMany sec name rows => isRefusal (m.addMany sec name rows)
  | .addDuplicates sec name rows => isRefusal ((m.addDuplicates sec name rows).map fun k => (k, true))
  | .remove sec name row => isRefusal (m.remove sec name row)
  | .removeMany sec name rows => isRefusal (m.removeMany sec name rows)
  | .replace sec name old new => isRefusal (m.replace sec name old new)
  | .removeFiltered sec name index values =>
    isRefusal ((m.removeFiltered sec name index values).map fun answer => (answer.1, true))
  | .clear | .sortByPriority | .sortBySubject => false

/-- A change of one definition that leaves it as it is. -/
theorem modify_of_find? {m : Model} {sec name : String} {d : Definition} {f : Definition → Definition}
    (hd : m.find? sec name = some d) (hf : f d = d) : m.modify sec name f = m := by
  refine congrArg Model.mk (Table.update_of_find fun defs hdefs => Table.update_of_find fun k hk => ?_)
  have hfound : m.find? sec name = some k := by rw [find?, hdefs, Option.bind_some, hk]
  obtain rfl : d = k := Option.some.inj (hd.symm.trans hfound)
  exact hf

theorem outcome_of_refusal {m : Model} {result : Except Error (Model × Bool)}
    (hsame : ∀ k, result = .ok (k, false) → k = m) (h : isRefusal result = true) :
    m.outcome result = m := by
  match result with
  | .ok (k, changed) =>
    obtain rfl : changed = false := by simpa [isRefusal] using h
    exact hsame k rfl
  | .error _ => rfl

/-- An operation that answers with something else than whether it changed anything is refused by an
error only. -/
theorem error_of_isRefusal {α : Type} {result : Except Error α} {model : α → Model}
    (h : isRefusal (result.map fun a => (model a, true)) = true) : ∃ err, result = .error err := by
  match result with
  | .ok a => simp [Except.map, isRefusal] at h
  | .error err => exact ⟨err, rfl⟩

theorem add_refused {m k : Model} {sec name : String} {row : Row}
    (h : m.add sec name row = .ok (k, false)) : k = m := by
  unfold add at h
  split at h
  · simp at h
  · split at h
    · simp at h
    · split at h <;> simp_all

theorem addMany_refused {m k : Model} {sec name : String} {rows : List Row}
    (h : m.addMany sec name rows = .ok (k, false)) : k = m := by
  unfold addMany at h
  split at h
  · simp at h
  · split at h <;> simp_all

theorem remove_refused {m k : Model} {sec name : String} {row : Row}
    (h : m.remove sec name row = .ok (k, false)) : k = m := by
  unfold remove at h
  split at h
  · simp at h
  · next d hd =>
    simp only [Except.ok.injEq, Prod.mk.injEq] at h
    rw [← h.1]
    -- a row that is not in the index is not looked for among the rows
    exact modify_of_find? (find?_of_findRows hd) (if_neg (by simp [h.2]))

theorem removeMany_refused {m k : Model} {sec name : String} {rows : List Row}
    (h : m.removeMany sec name rows = .ok (k, false)) : k = m := by
  unfold removeMany at h
  split at h
  · simp at h
  · split at h <;> simp_all

theorem replace_refused {m k : Model} {sec name : String} {old new : Row}
    (h : m.replace sec name old new = .ok (k, false)) : k = m := by
  unfold replace at h
  split at h
  · simp at h
  · next d hd =>
    split at h
    · simp at h
    · split at h
      · simp_all
      · simp only [Except.ok.injEq, Prod.mk.injEq] at h
        rw [← h.1]
        exact modify_of_find? (find?_of_findRows hd) (if_neg (by simpa using h.2))

/-- An operation that is refused leaves the model as it is. -/
theorem apply_of_refuses {m : Model} {operation : Operation} (h : m.refuses operation = true) :
    m.apply operation = m := by
  cases operation with
  | define sec key value =>
    replace h : (!(m.define sec key value).2) = true := h
    show (m.define sec key value).1 = m
    unfold define at h ⊢
    split
    · rfl
    · next hvalue => simp [hvalue] at h
  | add => exact outcome_of_refusal (fun _ => add_refused) h
  | addMany => exact outcome_of_refusal (fun _ => addMany_refused) h
  | addDuplicates sec name rows =>
    obtain ⟨err, herr⟩ := error_of_isRefusal h
    show m.outcome ((m.addDuplicates sec name rows).map fun k => (k, ())) = m
    rw [herr]
    rfl
  | remove => exact outcome_of_refusal (fun _ => remove_refused) h
  | removeMany => exact outcome_of_refusal (fun _ => removeMany_refused) h
  | replace => exact outcome_of_refusal (fun _ => replace_refused) h
  | removeFiltered sec name index values =>
    obtain ⟨err, herr⟩ := error_of_isRefusal h
    show m.outcome (m.removeFiltered sec name index values) = m
    rw [herr]
    rfl
  | clear | sortByPriority | sortBySubject => simp [refuses] at h

/-! ## Rows that are there once -/

theorem DistinctRows.apply {m : Model} (hm : m.WellFormed) (h : m.DistinctRows) {operation : Operation}
    (honce : operation.mayRepeat = false) : (m.apply operation).DistinctRows := by
  cases operation with
  | define sec key value =>
    intro other hother name d hd
    replace hd : (m.define sec key value).1.find? other name = some d := hd
    rw [find?_define] at hd
    split at hd
    · rw [← Option.some.inj hd]
      exact List.nodup_nil
    · exact h other hother name d hd
  | add => exact outcome_of h fun _ _ hk => (evolves_add hk).distinct hm h
  | addMany => exact outcome_of h fun _ _ hk => (evolves_addMany hk).distinct hm h
  | addDuplicates => simp [Operation.mayRepeat] at honce
  | remove sec name row =>
    refine outcome_of h fun k _ hk => ?_
    rw [remove_cases hk]
    exact (m.evolves_erase sec name row).distinct hm h
  | removeMany => exact outcome_of h fun _ _ hk => (evolves_removeMany hk).distinct hm h
  | replace => exact outcome_of h fun _ _ hk => (evolves_replace hk).distinct hm h
  | removeFiltered => exact outcome_of h fun _ _ hk => (evolves_removeFiltered hk).distinct hm h
  | clear => exact m.evolves_clear.distinct hm h
  | sortByPriority => exact m.evolves_sortByPriority.distinct hm h
  | sortBySubject => exact m.evolves_sortBySubject.distinct hm h

theorem DistinctRows.run {m : Model} (hm : m.WellFormed) (h : m.DistinctRows)
    {operations : List Operation} (honce : ∀ operation ∈ operations, operation.mayRepeat = false) :
    (m.run operations).DistinctRows := by
  induction operations generalizing m with
  | nil => exact h
  | cons operation rest ih =>
    rw [List.forall_mem_cons] at honce
    exact ih (hm.apply operation) (h.apply hm honce.1) honce.2

theorem distinctRows_of_empty {m : Model} (h : ∀ sec name, m.rows sec name = []) : m.DistinctRows := by
  intro sec _ name d hd
  rw [← rows_of_find? hd, h]
  exact List.nodup_nil

/-! ## The account of a definition -/

/-- What can be relied on for the rows of a definition. -/
structure Account (m : Model) (sec name : String) (d : Definition) : Prop where
  /-- The index holds each row with the number of its occurrences, and nothing else. -/
  counts : ∀ row, d.counts[row]? = if row ∈ d.rows then some (d.rows.count row) else none
  hasRow : ∀ row, m.hasRow sec name row = true ↔ row ∈ m.rows sec name
  arity : ∀ row ∈ m.rows sec name, row.length = d.fields.length
  /-- What a filter drops is what it selected before; the other rows stay in order, and the other
  definitions are as they were. -/
  removeFiltered : ∀ index values, values ≠ [] → ∃ k,
    m.removeFiltered sec name index values = .ok (k, m.filteredRows sec name index values) ∧
      k.rows sec name = (m.rows sec name).filter (fun row => !rowMatches index values row) ∧
      ∀ other otherName, ¬ (sec = other ∧ name = otherName) →
        k.find? other otherName = m.find? other otherName

theorem removeFiltered_eq {m : Model} {sec name : String} {d : Definition} (hsec : sec = "p" ∨ sec = "g")
    (hd : m.find? sec name = some d) {index : Nat} {values : List String} (h : values ≠ []) :
    m.removeFiltered sec name index values =
      .ok (m.modify sec name fun d => (d.eraseWhere (rowMatches index values)).1,
        m.filteredRows sec name index values) := by
  unfold removeFiltered
  rw [findRows_eq hsec hd]
  dsimp only
  rw [if_neg (by simpa using h), filteredRows, rows_of_find? hd]
  rfl

theorem WellFormed.account {m : Model} (h : m.WellFormed) {sec name : String} {d : Definition}
    (hsec : sec = "p" ∨ sec = "g") (hd : m.find? sec name = some d) : m.Account sec name d where
  counts row := by
    rw [(h.tidy sec name d hd).counts row, Definition.ofCount]
    by_cases hrow : row ∈ d.rows
    · rw [if_neg (Nat.ne_of_gt (List.count_pos_iff.2 hrow)), if_pos hrow]
    · rw [if_pos (List.count_eq_zero.2 hrow), if_neg hrow]
  hasRow row := by
    rw [hasRow, hd, rows_of_find? hd]
    exact (h.tidy sec name d hd).contains_iff row
  arity := by
    rw [rows_of_find? hd]
    exact (h.tidy sec name d hd).arity
  removeFiltered index values hvalues := by
    refine ⟨_, removeFiltered_eq hsec hd hvalues, ?_, fun other otherName hother => ?_⟩
    · rw [rows_of_find? (find?_modify_self hd _), rows_of_find? hd, Definition.rows_eraseWhere]
    · rw [find?_modify, if_neg hother]

/-- Whatever operations follow each other on a model that had no rows: of every definition that holds
rows the account is right, its rows are distinct unless duplicates were asked for, and an operation that
is refused leaves the model as it is. -/
theorem account_run {m : Model} (hbuilt : m.Built) (hempty : ∀ sec name, m.rows sec name = [])
    (operations : List Operation) :
    (∀ sec name d, sec = "p" ∨ sec = "g" → (m.run operations).find? sec name = some d →
      (m.run operations).Account sec name d ∧
        ((∀ operation ∈ operations, operation.mayRepeat = false) → d.rows.Nodup)) ∧
      ∀ operation, (m.run operations).refuses operation = true →
        (m.run operations).apply operation = m.run operations := by
  have hm : m.WellFormed := hbuilt.wellFormed
  refine ⟨fun sec name d hsec hd => ⟨(hm.run operations).account hsec hd, fun honce => ?_⟩,
    fun _ => apply_of_refuses⟩
  exact (distinctRows_of_empty hempty).run hm honce sec hsec name d hd

/-- A row that was added twice over is counted twice. -/
theorem account_run_twice : ∃ (m : Model) (d : Definition), m.Built ∧ (∀ sec name, m.rows sec name = []) ∧
    (m.run [.addDuplicates "p" "p" [["ann", "read"], ["bob", "read"], ["ann", "read"]]]).find? "p" "p" =
        some d ∧
      d.rows = [["ann", "read"], ["bob", "read"], ["ann", "read"]] ∧
      d.counts[["ann", "read"]]? = some 2 ∧ d.counts[["bob", "write"]]? = none := by
  have hempty : ∀ sec name, (build [.define "p" "p" "sub, act", .define "g" "g" "_, _"]).rows sec name =
      [] := by
    intro sec name
    have hfind : (build [.define "p" "p" "sub, act", .define "g" "g" "_, _"]).find? sec name =
        if ("g", "g") = (sec, name) then some (.make "g" "g" "_, _")
        else if ("p", "p") = (sec, name) then some (.make "p" "p" "sub, act") else none := by
      have hnone : ({} : Model).find? sec name = none := rfl
      simp [build, apply, find?_define, hnone]
    unfold rows
    rw [hfind]
    split
    · rfl
    · split <;> rfl
  obtain ⟨haccount, -⟩ := account_run ⟨_, rfl⟩ hempty
    [.addDuplicates "p" "p" [["ann", "read"], ["bob", "read"], ["ann", "read"]]]
  obtain ⟨hcount, -⟩ := haccount "p" "p" _ (Or.inl rfl) rfl
  exact ⟨_, _, ⟨_, rfl⟩, hempty, rfl, rfl, (hcount.counts _).trans rfl, (hcount.counts _).trans rfl⟩

end Model

end AccessControl
