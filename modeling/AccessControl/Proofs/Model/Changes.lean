import AccessControl.Proofs.Model.Rows
/-!
# Changes of a model

What every operation on the rows of a model does: it refuses, or it changes the one definition it names.
`Evolves` collects what all of them leave alone: the definitions, their tidiness, and that no row is
there twice.

    m.addMany sec name rows = .ok (k, true) → k = m.modify sec name (·.insertAll rows), and the rows fit,
      are new and distinct                                             (`addMany_cases`)
    m.Evolves k → m.WellFormed → k.WellFormed
-/

namespace AccessControl

namespace Definition

/-! ## Rows that fit -/

theorem checkRow_ok_iff (d : Definition) (row : Row) :
    d.checkRow row = .ok () ↔ row.length = d.fields.length := by
  unfold checkRow
  split <;> simp_all

theorem checkRows_ok_iff (d : Definition) (rows : List Row) :
    d.checkRows rows = .ok () ↔ ∀ row ∈ rows, row.length = d.fields.length := by
  induction rows with
  | nil => simp [checkRows]
  | cons row rest ih =>
    rw [checkRows, List.forall_mem_cons, ← ih, ← checkRow_ok_iff]
    split <;> simp_all

theorem repeatsRow_eq_false_iff (d : Definition) (rows : List Row) :
    d.repeatsRow rows = false ↔ (∀ row ∈ rows, d.contains row = false) ∧ rows.Nodup := by
  induction rows with
  | nil => simp [repeatsRow]
  | cons row rest ih =>
    simp only [repeatsRow, Bool.or_eq_false_iff, ih, List.forall_mem_cons, List.nodup_cons,
      List.contains_eq_mem, decide_eq_false_iff_not]
    tauto

theorem acceptsBatch_iff (d : Definition) (earlier rows : List Row) :
    d.acceptsBatch earlier rows = .ok true ↔ (∀ row ∈ rows, row.length = d.fields.length) ∧
      (∀ row ∈ rows, d.contains row = false) ∧ (∀ row ∈ rows, row ∉ earlier) ∧ rows.Nodup := by
  induction rows generalizing earlier with
  | nil => simp [acceptsBatch]
  | cons row rest ih =>
    rw [acceptsBatch]
    split
    · next err herr =>
      have hlen : ¬ row.length = d.fields.length := by rw [← checkRow_ok_iff, herr]; simp
      simp [hlen]
    · next hok =>
      rw [checkRow_ok_iff] at hok
      split
      · next hthere =>
        simp only [Bool.or_eq_true, List.contains_iff_mem] at hthere
        simp only [Except.ok.injEq, Bool.false_eq_true, List.forall_mem_cons, false_iff]
        rintro ⟨-, ⟨hnew, -⟩, ⟨hearlier, -⟩, -⟩
        rcases hthere with h | h
        · simp [hnew] at h
        · exact hearlier h
      · next hnot =>
        simp only [Bool.or_eq_true, List.contains_iff_mem, not_or, Bool.not_eq_true] at hnot
        simp only [ih, List.forall_mem_cons, List.nodup_cons]
        simp only [List.mem_cons, not_or]
        constructor
        · rintro ⟨hlen, hnew, hearlier, hdistinct⟩
          exact ⟨⟨hok, hlen⟩, ⟨hnot.1, hnew⟩, ⟨hnot.2, fun r hr => (hearlier r hr).2⟩,
            fun hmem => (hearlier row hmem).1 rfl, hdistinct⟩
        · rintro ⟨⟨-, hlen⟩, ⟨-, hnew⟩, ⟨-, hearlier⟩, hrow, hdistinct⟩
          exact ⟨hlen, hnew, fun r hr => ⟨fun heq => hrow (heq ▸ hr), hearlier r hr⟩, hdistinct⟩

/-! ## Many rows -/

theorem rows_insertAll (d : Definition) (rows : List Row) :
    (d.insertAll rows).rows.Perm (rows ++ d.rows) := by
  induction rows generalizing d with
  | nil => exact List.Perm.refl _
  | cons row rest ih =>
    have hrest : (d.insertAll (row :: rest)).rows.Perm (rest ++ (d.insert row).rows) := ih (d.insert row)
    exact hrest.trans (((rows_insert d row).append_left rest).trans List.perm_middle)

theorem Tidy.rows_eraseAll {d : Definition} (h : d.Tidy) (rows : List Row) :
    (d.eraseAll rows).rows = d.rows.filter fun row => !rows.contains row := by
  induction rows generalizing d with
  | nil => simp [Definition.eraseAll]
  | cons row rest ih =>
    have hrest : (d.eraseAll (row :: rest)).rows = ((d.erase row).eraseAll rest).rows := rfl
    rw [hrest, ih (h.erase row), h.rows_erase, List.filter_filter]
    refine List.filter_congr fun r _ => ?_
    rw [List.contains_cons, Bool.not_or, Bool.and_comm]
    rfl

end Definition

namespace Model

/-! ## What all changes of rows have in common -/

/-- From one model to another that differs in its rows only. -/
structure Evolves (m k : Model) : Prop where
  bare : k.bare = m.bare
  wellFormed : m.WellFormed → k.WellFormed
  distinct : m.WellFormed → m.DistinctRows → k.DistinctRows

theorem Evolves.refl (m : Model) : m.Evolves m := ⟨rfl, id, fun _ h => h⟩

theorem Evolves.trans {m k l : Model} (h : m.Evolves k) (h' : k.Evolves l) : m.Evolves l where
  bare := h'.bare.trans h.bare
  wellFormed hm := h'.wellFormed (h.wellFormed hm)
  distinct hm hd := h'.distinct (h.wellFormed hm) (h.distinct hm hd)

theorem evolves_modify (m : Model) (sec name : String) {f : Definition → Definition}
    (hbare : ∀ d, (f d).bare = d.bare)
    (h : ∀ d, m.find? sec name = some d → d.Tidy →
      (f d).Tidy ∧ (d.rows.Nodup → (f d).rows.Nodup)) : m.Evolves (m.modify sec name f) where
  bare := m.bare_modify sec name hbare
  wellFormed hm := hm.modify sec name hbare fun d hd => (h d hd (hm.tidy sec name d hd)).1
  distinct hm hdistinct other hother otherName d hd := by
    rw [find?_modify] at hd
    split at hd
    · next heq =>
      obtain ⟨old, hold, rfl⟩ := Option.map_eq_some_iff.1 hd
      have hnodup := hdistinct other hother otherName old hold
      rw [← heq.1, ← heq.2] at hold
      exact (h old hold (hm.tidy sec name old hold)).2 hnodup
    · exact hdistinct other hother otherName d hd

theorem evolves_modifyAll (m : Model) (sec : String) {f : Definition → Definition}
    (hbare : ∀ d, (f d).bare = d.bare)
    (h : ∀ d : Definition, d.Tidy → (f d).Tidy ∧ (d.rows.Nodup → (f d).rows.Nodup)) :
    m.Evolves (m.modifyAll sec f) where
  bare := m.bare_modifyAll sec hbare
  wellFormed hm := hm.modifyAll sec hbare fun d hd => (h d hd).1
  distinct hm hdistinct other hother name d hd := by
    rw [find?_modifyAll] at hd
    split at hd
    · obtain ⟨old, hold, rfl⟩ := Option.map_eq_some_iff.1 hd
      exact (h old (hm.tidy other name old hold)).2 (hdistinct other hother name old hold)
    · exact hdistinct other hother name d hd

/-! ## One operation -/

theorem find?_of_find {m : Model} {sec name : String} {d : Definition} (h : m.find sec name = .ok d) :
    m.find? sec name = some d := by
  unfold find at h
  split at h
  · next hd => rw [hd, Except.ok.inj h]
  · simp at h

theorem find?_of_findRows {m : Model} {sec name : String} {d : Definition}
    (h : m.findRows sec name = .ok d) : m.find? sec name = some d := by
  unfold findRows at h
  split at h
  · split at h
    · next hd => exact find?_of_find (by rw [hd, Except.ok.inj h])
    · simp at h
  · simp at h

/-- Only policy and role rows can be changed. -/
theorem section_of_findRows {m : Model} {sec name : String} {d : Definition}
    (h : m.findRows sec name = .ok d) : sec = "p" ∨ sec = "g" := by
  unfold findRows at h
  split at h
  · next hsec => simpa using hsec
  · simp at h

theorem findRows_eq {m : Model} {sec name : String} {d : Definition} (hsec : sec = "p" ∨ sec = "g")
    (h : m.find? sec name = some d) : m.findRows sec name = .ok d := by
  unfold findRows find
  rw [h]
  rcases hsec with rfl | rfl <;> simp

theorem add_cases {m k : Model} {sec name : String} {row : Row} {changed : Bool}
    (h : m.add sec name row = .ok (k, changed)) :
    k = m ∨ ∃ d, m.find? sec name = some d ∧ row.length = d.fields.length ∧
      d.contains row = false ∧ k = m.modify sec name (·.insert row) := by
  unfold add at h
  split at h
  · simp at h
  · next d hd =>
    split at h
    · simp at h
    · next hcheck =>
      split at h
      · simp only [Except.ok.injEq, Prod.mk.injEq] at h
        exact Or.inl h.1.symm
      · next hnew =>
        simp only [Except.ok.injEq, Prod.mk.injEq] at h
        exact Or.inr ⟨d, find?_of_findRows hd, (d.checkRow_ok_iff row).1 hcheck,
          by simpa using hnew, h.1.symm⟩

theorem add_eq {m : Model} {sec name : String} {d : Definition} (hsec : sec = "p" ∨ sec = "g")
    (hd : m.find? sec name = some d) {row : Row} (hlen : row.length = d.fields.length)
    (hnew : d.contains row = false) :
    m.add sec name row = .ok (m.modify sec name (·.insert row), true) := by
  unfold add
  rw [findRows_eq hsec hd]
  dsimp only
  rw [(d.checkRow_ok_iff row).2 hlen]
  dsimp only
  rw [hnew, if_neg (by simp)]

theorem addMany_eq {m : Model} {sec name : String} {d : Definition} (hsec : sec = "p" ∨ sec = "g")
    (hd : m.find? sec name = some d) {rows : List Row}
    (hlen : ∀ row ∈ rows, row.length = d.fields.length)
    (hnew : ∀ row ∈ rows, d.contains row = false) (hnodup : rows.Nodup) :
    m.addMany sec name rows = .ok (m.modify sec name (·.insertAll rows), true) := by
  unfold addMany
  rw [findRows_eq hsec hd]
  dsimp only
  rw [(d.acceptsBatch_iff [] rows).2 ⟨hlen, hnew, by simp, hnodup⟩]

theorem addMany_cases {m k : Model} {sec name : String} {rows : List Row} {changed : Bool}
    (h : m.addMany sec name rows = .ok (k, changed)) :
    k = m ∨ ∃ d, m.find? sec name = some d ∧ (∀ row ∈ rows, row.length = d.fields.length) ∧
      (∀ row ∈ rows, d.contains row = false) ∧ rows.Nodup ∧
      k = m.modify sec name (·.insertAll rows) := by
  unfold addMany at h
  split at h
  · simp at h
  · next d hd =>
    split at h
    · simp at h
    · simp only [Except.ok.injEq, Prod.mk.injEq] at h
      exact Or.inl h.1.symm
    · next hbatch =>
      simp only [Except.ok.injEq, Prod.mk.injEq] at h
      obtain ⟨hlen, hnew, -, hnodup⟩ := (d.acceptsBatch_iff [] rows).1 hbatch
      exact Or.inr ⟨d, find?_of_findRows hd, hlen, hnew, hnodup, h.1.symm⟩

theorem addDuplicates_cases {m k : Model} {sec name : String} {rows : List Row}
    (h : m.addDuplicates sec name rows = .ok k) :
    ∃ d, m.find? sec name = some d ∧ (∀ row ∈ rows, row.length = d.fields.length) ∧
      k = m.modify sec name (·.insertAll rows) := by
  unfold addDuplicates at h
  split at h
  · simp at h
  · next d hd =>
    split at h
    · simp at h
    · next hcheck =>
      exact ⟨d, find?_of_findRows hd, (d.checkRows_ok_iff rows).1 hcheck, (Except.ok.inj h).symm⟩

theorem remove_cases {m k : Model} {sec name : String} {row : Row} {changed : Bool}
    (h : m.remove sec name row = .ok (k, changed)) : k = m.modify sec name (·.erase row) := by
  unfold remove at h
  split at h
  · simp at h
  · simp only [Except.ok.injEq, Prod.mk.injEq] at h
    exact h.1.symm

theorem removeMany_eq {m : Model} {sec name : String} {d : Definition} (hsec : sec = "p" ∨ sec = "g")
    (hd : m.find? sec name = some d) {rows : List Row} (h : rows.all d.contains = true) :
    m.removeMany sec name rows = .ok (m.modify sec name (·.eraseAll rows), true) := by
  unfold removeMany
  rw [findRows_eq hsec hd]
  dsimp only
  rw [if_pos h]

theorem removeMany_cases {m k : Model} {sec name : String} {rows : List Row} {changed : Bool}
    (h : m.removeMany sec name rows = .ok (k, changed)) :
    k = m ∨ k = m.modify sec name (·.eraseAll rows) := by
  unfold removeMany at h
  split at h
  · simp at h
  · split at h
    · simp only [Except.ok.injEq, Prod.mk.injEq] at h
      exact Or.inr h.1.symm
    · simp only [Except.ok.injEq, Prod.mk.injEq] at h
      exact Or.inl h.1.symm

/-- The condition on which one row is put for another. -/
theorem replaces_iff (d : Definition) (old new : Row) :
    ¬ (!d.contains old || (new != old && d.contains new)) = true ↔
      d.contains old = true ∧ (new ≠ old → d.contains new = false) := by
  simp only [Bool.or_eq_true, Bool.not_eq_true', Bool.and_eq_true, bne_iff_ne, ne_eq, not_or,
    Bool.not_eq_false, not_and, Bool.not_eq_true]

theorem replace_eq {m : Model} {sec name : String} {d : Definition} (hsec : sec = "p" ∨ sec = "g")
    (hd : m.find? sec name = some d) {old new : Row} (hlen : new.length = d.fields.length)
    (hold : d.contains old = true) (hnew : new ≠ old → d.contains new = false) :
    m.replace sec name old new =
      .ok (m.modify sec name (·.replace old new), d.rows.contains old) := by
  unfold replace
  rw [findRows_eq hsec hd]
  dsimp only
  rw [(d.checkRow_ok_iff new).2 hlen]
  dsimp only
  rw [if_neg ((replaces_iff d old new).2 ⟨hold, hnew⟩)]

theorem replace_cases {m k : Model} {sec name : String} {old new : Row} {changed : Bool}
    (h : m.replace sec name old new = .ok (k, changed)) :
    k = m ∨ ∃ d, m.find? sec name = some d ∧ new.length = d.fields.length ∧ d.contains old = true ∧
      (new ≠ old → d.contains new = false) ∧ k = m.modify sec name (·.replace old new) := by
  unfold replace at h
  split at h
  · simp at h
  · next d hd =>
    split at h
    · simp at h
    · next hcheck =>
      split at h
      · simp only [Except.ok.injEq, Prod.mk.injEq] at h
        exact Or.inl h.1.symm
      · next htest =>
        simp only [Except.ok.injEq, Prod.mk.injEq] at h
        obtain ⟨hold, hnew⟩ := (replaces_iff d old new).1 htest
        exact Or.inr ⟨d, find?_of_findRows hd, (d.checkRow_ok_iff new).1 hcheck, hold, hnew,
          h.1.symm⟩

theorem removeFiltered_cases {m k : Model} {sec name : String} {index : Nat} {values : List String}
    {removed : List Row} (h : m.removeFiltered sec name index values = .ok (k, removed)) :
    (k = m ∧ removed = []) ∨ ∃ d, m.find? sec name = some d ∧
      removed = d.rows.filter (rowMatches index values) ∧
      k = m.modify sec name fun d => (d.eraseWhere (rowMatches index values)).1 := by
  unfold removeFiltered at h
  split at h
  · simp at h
  · next d hd =>
    split at h
    · simp only [Except.ok.injEq, Prod.mk.injEq] at h
      exact Or.inl ⟨h.1.symm, h.2.symm⟩
    · simp only [Except.ok.injEq, Prod.mk.injEq] at h
      exact Or.inr ⟨d, find?_of_findRows hd, h.2.symm, h.1.symm⟩

/-- Only rows that are there are dropped. -/
theorem mem_of_removeFiltered {m k : Model} {sec name : String} {index : Nat} {values : List String}
    {removed : List Row} (h : m.removeFiltered sec name index values = .ok (k, removed))
    {d : Definition} (hd : m.find? sec name = some d) : ∀ row ∈ removed, row ∈ d.rows := by
  rcases removeFiltered_cases h with ⟨-, rfl⟩ | ⟨x, hx, rfl, -⟩
  · simp
  · obtain rfl := Option.some.inj (hx.symm.trans hd)
    exact fun row hrow => List.mem_of_mem_filter hrow

/-- A definition has its rows but those that are dropped by their fields. -/
theorem find?_removeFiltered {m k : Model} {sec name : String} {index : Nat} {values : List String}
    {removed : List Row} (h : m.removeFiltered sec name index values = .ok (k, removed))
    {d : Definition} (hd : m.find? sec name = some d) :
    ∃ x, k.find? sec name = some x ∧ x.rows = d.rows.filter fun row => !removed.contains row := by
  rcases removeFiltered_cases h with ⟨rfl, rfl⟩ | ⟨x, hx, rfl, rfl⟩
  · exact ⟨d, hd, by simp⟩
  · obtain rfl := Option.some.inj (hx.symm.trans hd)
    refine ⟨(x.eraseWhere (rowMatches index values)).1, find?_modify_self hd _, ?_⟩
    rw [Definition.rows_eraseWhere]
    refine List.filter_congr fun row hrow => ?_
    rw [Bool.not_inj_iff, Bool.eq_iff_iff, List.contains_iff_mem, List.mem_filter]
    exact (and_iff_right hrow).symm

/-! ## Every operation -/

theorem evolves_insertAll {m : Model} {sec name : String} {d : Definition} {rows : List Row}
    (hd : m.find? sec name = some d) (hlen : ∀ row ∈ rows, row.length = d.fields.length)
    (hnew : ∀ row ∈ rows, d.contains row = false) (hnodup : rows.Nodup) :
    m.Evolves (m.modify sec name (·.insertAll rows)) := by
  refine m.evolves_modify sec name (fun d => d.bare_insertAll rows) fun k hk htidy => ?_
  obtain rfl : d = k := Option.some.inj (hd.symm.trans hk)
  refine ⟨htidy.insertAll hlen, fun hrows => ?_⟩
  rw [(d.rows_insertAll rows).nodup_iff, List.nodup_append]
  refine ⟨hnodup, hrows, ?_⟩
  rintro row hrow _ hold rfl
  exact (htidy.contains_eq_false_iff row).1 (hnew row hrow) hold

theorem evolves_add {m k : Model} {sec name : String} {row : Row} {changed : Bool}
    (h : m.add sec name row = .ok (k, changed)) : m.Evolves k := by
  rcases add_cases h with rfl | ⟨d, hd, hlen, hnew, rfl⟩
  · exact Evolves.refl k
  · exact evolves_insertAll hd (List.forall_mem_singleton.2 hlen) (List.forall_mem_singleton.2 hnew)
      (List.nodup_singleton row)

theorem evolves_addMany {m k : Model} {sec name : String} {rows : List Row} {changed : Bool}
    (h : m.addMany sec name rows = .ok (k, changed)) : m.Evolves k := by
  rcases addMany_cases h with rfl | ⟨d, hd, hlen, hnew, hnodup, rfl⟩
  · exact Evolves.refl k
  · exact evolves_insertAll hd hlen hnew hnodup

theorem evolves_erase (m : Model) (sec name : String) (row : Row) :
    m.Evolves (m.modify sec name (·.erase row)) := by
  refine m.evolves_modify sec name (fun d => d.bare_erase row) fun d _ htidy =>
    ⟨htidy.erase row, fun hrows => ?_⟩
  rw [htidy.rows_erase]
  exact hrows.filter _

theorem evolves_eraseAll (m : Model) (sec name : String) (rows : List Row) :
    m.Evolves (m.modify sec name (·.eraseAll rows)) := by
  refine m.evolves_modify sec name (fun d => d.bare_eraseAll rows) fun d _ htidy =>
    ⟨htidy.eraseAll rows, fun hrows => ?_⟩
  rw [htidy.rows_eraseAll]
  exact hrows.filter _

theorem evolves_removeMany {m k : Model} {sec name : String} {rows : List Row} {changed : Bool}
    (h : m.removeMany sec name rows = .ok (k, changed)) : m.Evolves k := by
  rcases removeMany_cases h with rfl | rfl
  · exact Evolves.refl k
  · exact m.evolves_eraseAll sec name rows

theorem evolves_replace {m k : Model} {sec name : String} {old new : Row} {changed : Bool}
    (h : m.replace sec name old new = .ok (k, changed)) : m.Evolves k := by
  rcases replace_cases h with rfl | ⟨d, hd, hlen, hold, hnew, rfl⟩
  · exact Evolves.refl k
  · refine m.evolves_modify sec name (fun d => d.bare_replace old new) fun k hk htidy => ?_
    obtain rfl : d = k := Option.some.inj (hd.symm.trans hk)
    refine ⟨htidy.replace old hlen, fun hrows => ?_⟩
    rw [(Definition.rows_replace ((htidy.contains_iff old).1 hold) new).nodup_iff, List.nodup_cons]
    refine ⟨?_, hrows.erase old⟩
    rw [hrows.mem_erase_iff]
    rintro ⟨hne, hmem⟩
    exact (htidy.contains_eq_false_iff new).1 (hnew hne) hmem

theorem evolves_eraseWhere (m : Model) (sec name : String) (test : Row → Bool) :
    m.Evolves (m.modify sec name fun d => (d.eraseWhere test).1) :=
  m.evolves_modify sec name (fun d => d.bare_eraseWhere test) fun _ _ htidy =>
    ⟨htidy.eraseWhere test, fun hrows => hrows.filter _⟩

theorem evolves_removeFiltered {m k : Model} {sec name : String} {index : Nat} {values : List String}
    {removed : List Row} (h : m.removeFiltered sec name index values = .ok (k, removed)) :
    m.Evolves k := by
  rcases removeFiltered_cases h with ⟨rfl, -⟩ | ⟨d, -, -, rfl⟩
  · exact Evolves.refl k
  · exact m.evolves_eraseWhere sec name _

theorem evolves_clear (m : Model) : m.Evolves m.clear :=
  have hclear : ∀ d : Definition, d.Tidy → d.clear.Tidy ∧ (d.rows.Nodup → d.clear.rows.Nodup) :=
    fun d _ => ⟨d.tidy_clear, fun _ => List.nodup_nil⟩
  (m.evolves_modifyAll "p" Definition.bare_clear hclear).trans
    (Model.evolves_modifyAll _ "g" Definition.bare_clear hclear)

theorem find?_clear (m : Model) {sec : String} (hsec : sec = "p" ∨ sec = "g") (name : String) :
    m.clear.find? sec name = (m.find? sec name).map Definition.clear := by
  unfold clear
  rcases hsec with rfl | rfl <;> simp [find?_modifyAll]

theorem distinctRows_clear (m : Model) : m.clear.DistinctRows := by
  intro sec hsec name d hd
  rw [find?_clear m hsec] at hd
  obtain ⟨old, -, rfl⟩ := Option.map_eq_some_iff.1 hd
  exact List.nodup_nil

theorem evolves_sortByPriority (m : Model) : m.Evolves m.sortByPriority :=
  m.evolves_modifyAll "p" Definition.bare_sortByPriority fun d htidy =>
    ⟨htidy.sortByPriority, fun hrows => (d.rows_sortByPriority.nodup_iff).2 hrows⟩

theorem evolves_sortBySubject (m : Model) : m.Evolves m.sortBySubject where
  bare := m.bare_sortBySubject
  wellFormed hm := hm.sortBySubject
  distinct hm hdistinct sec hsec name d hd := by
    obtain ⟨levels, hl⟩ := m.find?_sortBySubject sec name
    rw [hl] at hd
    split at hd
    · obtain ⟨old, hold, rfl⟩ := Option.map_eq_some_iff.1 hd
      exact ((old.rows_sortBySubject _ _).nodup_iff).2 (hdistinct sec hsec name old hold)
    · exact hdistinct sec hsec name d hd

/-- Lines of one definition that fit, are new and distinct are added to its rows. -/
theorem addLines_rows {m : Model} {sec name : String} {d : Definition} (hsec : sec = "p" ∨ sec = "g")
    (hname : sectionOf name = sec) (hd : m.find? sec name = some d) (htidy : d.Tidy) {rows : List Row}
    (hlen : ∀ row ∈ rows, row.length = d.fields.length) (hnew : ∀ row ∈ rows, row ∉ d.rows)
    (hnodup : rows.Nodup) :
    m.addLines (rows.map (name :: ·)) = (.ok (), m.modify sec name (·.insertAll rows)) := by
  induction rows generalizing m d with
  | nil => exact congrArg (Prod.mk _) (m.modify_same sec name).symm
  | cons row rest ih =>
    rw [List.forall_mem_cons] at hlen hnew
    rw [List.nodup_cons] at hnodup
    have hcontains := (htidy.contains_eq_false_iff row).2 hnew.1
    have hadd := add_eq hsec hd hlen.1 hcontains
    have hfound : (m.modify sec name (·.insert row)).find? sec name = some (d.insert row) :=
      find?_modify_self hd _
    have hrest : ∀ r ∈ rest, r ∉ (d.insert row).rows := by
      intro r hr
      rw [(d.rows_insert row).mem_iff, List.mem_cons, not_or]
      exact ⟨fun heq => hnodup.1 (heq ▸ hr), hnew.2 r hr⟩
    have hih := ih hfound (htidy.insert hlen.1) hlen.2 hrest hnodup.2
    rw [List.map_cons, addLines, addLine, hname, hadd]
    dsimp only
    rw [hih, modify_modify]
    rfl

theorem evolves_addLines (m : Model) (lines : List Line) : m.Evolves (m.addLines lines).2 := by
  induction lines generalizing m with
  | nil => exact Evolves.refl m
  | cons line rest ih =>
    unfold addLines
    split
    · next k hk =>
      refine Evolves.trans ?_ (ih k)
      unfold addLine at hk
      split at hk
      · rw [← Except.ok.inj hk]
        exact Evolves.refl m
      · split at hk
        · next hadd =>
          rw [← Except.ok.inj hk]
          exact evolves_add hadd
        · simp at hk
    · exact Evolves.refl m

/-- Lines that were put in the place of all rows. -/
theorem evolves_loaded {m k : Model} {lines : List Line} (h : m.clear.addLines lines = (.ok (), k)) :
    m.Evolves k := by
  have hlines := m.clear.evolves_addLines lines
  rw [h] at hlines
  exact m.evolves_clear.trans hlines

end Model

end AccessControl
