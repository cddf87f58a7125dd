import AccessControl.Enforcer.Changes
import AccessControl.Proofs.Model.Changes
/-!
# What operations on rows come to

An operation on the rows of a definition goes through the links, the store and the model, and can end at
each of them.  For each operation an inductive lists its ends, with what was done up to there; whatever is
to be known of an operation is proved by these cases.

    e.addRows sec name rows = (result, k) → e.Adds sec name rows result k        (`adds_of_addRows`)
    e.removeRows sec name rows = (result, k) → e.Removes sec name rows result k  (`removes_of_removeRows`)
    e.updateRow sec name old new = (result, k) → e.Updates sec name old new result k
                                                                                 (`updates_of_updateRow`)
-/

namespace AccessControl

/-- Rows that fit a definition, are new to it, and do not repeat. -/
structure Definition.Fresh (d : Definition) (rows : List Row) : Prop where
  arity : ∀ row ∈ rows, row.length = d.fields.length
  new : ∀ row ∈ rows, d.contains row = false
  distinct : rows.Nodup

/-- A row that is there, and one that can take its place. -/
structure Definition.Replaces (d : Definition) (old new : Row) : Prop where
  arity : new.length = d.fields.length
  there : d.contains old = true
  free : new ≠ old → d.contains new = false

namespace Enforcer

variable {σ : Type} {sec name : String}

/-! ## Parts of operations -/

theorem persist_eq {α : Type} {e k : Enforcer σ} {change : σ → Except StoreError α × σ}
    {result : Except Error Unit} (h : e.persist change = (result, k)) :
    ∃ store, k = { e with store } := by
  unfold persist at h
  split at h <;> exact ⟨_, (Prod.mk.inj h).2.symm⟩

theorem persist_unsaved {α : Type} {e : Enforcer σ} (h : e.config.autoSave = false)
    (change : σ → Except StoreError α × σ) : e.persist change = (.ok (), e) := by
  simp [persist, h]

/-- From one enforcer to another that differs in its links only. -/
def Relinked (e k : Enforcer σ) : Prop := ∃ managers, k = { e with managers }

theorem Relinked.trans {e k l : Enforcer σ} (h : e.Relinked k) (h' : k.Relinked l) :
    e.Relinked l := by
  obtain ⟨_, rfl⟩ := h
  exact h'

theorem relinked_followRows {e k : Enforcer σ} {change : LinkChange} {rows : List Row}
    {result : Except Error Unit} (h : e.followRows sec name change rows = (result, k)) :
    e.Relinked k := by
  unfold followRows linkRows at h
  split at h
  · split at h <;> exact ⟨_, (Prod.mk.inj h).2.symm⟩
  · exact ⟨e.managers, (Prod.mk.inj h).2.symm⟩

theorem relinked_relinkRow {e k : Enforcer σ} {old new : Row} {result : Except Error Unit}
    (h : e.relinkRow sec name old new = (result, k)) : e.Relinked k := by
  unfold relinkRow at h
  split at h
  · next hremove => exact (Prod.mk.inj h).2 ▸ relinked_followRows hremove
  · next hremove =>
    have hl := relinked_followRows hremove
    split at h
    · next hadd => exact (Prod.mk.inj h).2 ▸ hl.trans (relinked_followRows hadd)
    · next hadd =>
      have hl := hl.trans (relinked_followRows hadd)
      split at h <;> next hback => exact (Prod.mk.inj h).2 ▸ hl.trans (relinked_followRows hback)

theorem relinked_unlinkRow {e k : Enforcer σ} {old new : Row} {result : Except Error Unit}
    (h : e.unlinkRow sec name old new = (result, k)) : e.Relinked k := by
  unfold unlinkRow at h
  split at h
  · next hremove => exact (Prod.mk.inj h).2 ▸ relinked_followRows hremove
  · next hremove => exact (relinked_followRows hremove).trans (relinked_followRows h)

theorem model_followRows {e k : Enforcer σ} {change : LinkChange} {rows : List Row}
    {result : Except Error Unit} (h : e.followRows sec name change rows = (result, k)) :
    k.model = e.model := by
  obtain ⟨managers, rfl⟩ := relinked_followRows h
  rfl

theorem model_relinkRow {e k : Enforcer σ} {old new : Row} {result : Except Error Unit}
    (h : e.relinkRow sec name old new = (result, k)) : k.model = e.model := by
  obtain ⟨managers, rfl⟩ := relinked_relinkRow h
  rfl

theorem model_persist {α : Type} {e k : Enforcer σ} {change : σ → Except StoreError α × σ}
    {result : Except Error Unit} (h : e.persist change = (result, k)) : k.model = e.model := by
  obtain ⟨store, rfl⟩ := persist_eq h
  rfl

/-- A change of the model that ends with an error does nothing. -/
theorem finishChange_error {e : Enforcer σ} {change : Except Error (Model × Bool)}
    (h : ∀ m changed, change ≠ .ok (m, changed)) : ∃ err, e.finishChange change = (.error err, e) := by
  match change, h with
  | .ok (m, changed), h => exact absurd rfl (h m changed)
  | .error err, _ => exact ⟨err, rfl⟩

variable [PolicyStore σ] {e k : Enforcer σ} {result : Except Error Bool}

/-! ## Adding -/

section

variable {rows : List Row}

/-- How rows come in: they are new, their links are added, the store is told, and the model has them. -/
structure Added (e : Enforcer σ) (sec name : String) (rows : List Row) (d : Definition)
    (l s k : Enforcer σ) : Prop where
  section_eq : sec = "p" ∨ sec = "g"
  found : e.model.find? sec name = some d
  fresh : d.Fresh rows
  linked : e.followRows sec name .add rows = (.ok (), l)
  stored : l.persist (storeRows sec name rows) = (.ok (), s)
  after : k = s.setRows (e.model.modify sec name (·.insertAll rows)) true

/-- The ends of an addition: nothing is touched; the links refuse the rows; the store fails and the links
are dropped again; the section is not one of rows; the rows are in. -/
inductive Adds (e : Enforcer σ) (sec name : String) (rows : List Row) :
    Except Error Bool → Enforcer σ → Prop where
  | refused {result : Except Error Bool} (hr : result ≠ .ok true) : Adds e sec name rows result e
  | unlinked {d : Definition} {k : Enforcer σ} {err : Error} (hd : e.model.find? sec name = some d)
      (hfresh : d.Fresh rows) (hlink : e.followRows sec name .add rows = (.error err, k)) :
      Adds e sec name rows (.error err) k
  | unstored {d : Definition} {l s k : Enforcer σ} {err failure : Error} {undone : Except Error Unit}
      (hd : e.model.find? sec name = some d) (hfresh : d.Fresh rows)
      (hlink : e.followRows sec name .add rows = (.ok (), l))
      (hstore : l.persist (storeRows sec name rows) = (.error err, s))
      (hundo : s.followRows sec name .remove rows = (undone, k)) :
      Adds e sec name rows (.error failure) k
  | misfiled {d : Definition} {l s : Enforcer σ} {err : Error} (hsec : ¬ (sec = "p" ∨ sec = "g"))
      (hd : e.model.find? sec name = some d) (hlink : e.followRows sec name .add rows = (.ok (), l))
      (hstore : l.persist (storeRows sec name rows) = (.ok (), s)) :
      Adds e sec name rows (.error err) s
  | added {d : Definition} {l s k : Enforcer σ} (h : e.Added sec name rows d l s k) :
      Adds e sec name rows (.ok true) k

theorem section_of_addMany {m l : Model} {changed : Bool}
    (h : m.addMany sec name rows = .ok (l, changed)) : sec = "p" ∨ sec = "g" := by
  unfold Model.addMany at h
  split at h
  · simp at h
  · next hd => exact Model.section_of_findRows hd

theorem adds_of_addRows (h : e.addRows sec name rows = (result, k)) :
    e.Adds sec name rows result k := by
  unfold addRows at h
  split at h
  · obtain ⟨rfl, rfl⟩ := Prod.mk.inj h
    exact .refused (by simp)
  · next d hd =>
    have hd := Model.find?_of_find hd
    split at h
    · obtain ⟨rfl, rfl⟩ := Prod.mk.inj h
      exact .refused (by simp)
    · next hcheck =>
      split at h
      · obtain ⟨rfl, rfl⟩ := Prod.mk.inj h
        exact .refused (by simp)
      · next hrepeats =>
        rw [Bool.or_eq_true, not_or, Bool.not_eq_true, Bool.not_eq_true] at hrepeats
        obtain ⟨hnew, hnodup⟩ := (d.repeatsRow_eq_false_iff rows).1 hrepeats.2
        have hfresh : d.Fresh rows := ⟨(d.checkRows_ok_iff rows).1 hcheck, hnew, hnodup⟩
        split at h
        · next hlink =>
          obtain ⟨rfl, rfl⟩ := Prod.mk.inj h
          exact .unlinked hd hfresh hlink
        · next l hlink =>
          split at h
          · next s hstore =>
            rw [(model_persist hstore).trans (model_followRows hlink)] at h
            by_cases hsec : sec = "p" ∨ sec = "g"
            · rw [Model.addMany_eq hsec hd hfresh.arity hnew hnodup] at h
              obtain ⟨rfl, rfl⟩ := Prod.mk.inj h
              exact .added ⟨hsec, hd, hfresh, hlink, hstore, rfl⟩
            · obtain ⟨err, herr⟩ := finishChange_error (e := s) fun m changed hadd =>
                hsec (section_of_addMany hadd)
              obtain ⟨rfl, rfl⟩ := Prod.mk.inj (herr.symm.trans h)
              exact .misfiled hsec hd hlink hstore
          · next hstore =>
            split at h <;> next hundo =>
              obtain ⟨rfl, rfl⟩ := Prod.mk.inj h
              exact .unstored hd hfresh hlink hstore hundo

theorem addRows_true (h : e.addRows sec name rows = (.ok true, k)) :
    ∃ d l s, e.Added sec name rows d l s k := by
  cases adds_of_addRows h with
  | refused hr => exact absurd rfl hr
  | added hadded => exact ⟨_, _, _, hadded⟩

/-- Rows that fit, are new and distinct are linked, stored and added. -/
theorem addRows_fit {e : Enforcer σ} {d : Definition} {rows : List Row}
    (hd : e.model.find? sec name = some d) (htidy : d.Tidy)
    (hlen : ∀ row ∈ rows, row.length = d.fields.length) (hnew : ∀ row ∈ rows, row ∉ d.rows)
    (hnodup : rows.Nodup) (hne : rows ≠ []) :
    e.addRows sec name rows =
      match e.followRows sec name .add rows with
      | (.error err, e) => (.error err, e)
      | (.ok (), e) =>
        match e.persist (storeRows sec name rows) with
        | (.ok (), e) => e.finishChange (e.model.addMany sec name rows)
        | (.error err, e) =>
          match e.followRows sec name .remove rows with
          | (.ok (), e) => (.error err, e)
          | (.error other, e) => (.error other, e) := by
  have hrepeats : d.repeatsRow rows = false :=
    (d.repeatsRow_eq_false_iff rows).2
      ⟨fun row hrow => (htidy.contains_eq_false_iff row).2 (hnew row hrow), hnodup⟩
  conv_lhs => unfold addRows Model.find
  rw [hd]
  dsimp only
  rw [(d.checkRows_ok_iff rows).2 hlen]
  dsimp only
  exact if_neg (by simpa [hrepeats] using hne)

/-- Rows that fit, are new and distinct are added, when their links and the store take them. -/
theorem addRows_eq {e l s : Enforcer σ} {d : Definition} {rows : List Row}
    (hsec : sec = "p" ∨ sec = "g") (hd : e.model.find? sec name = some d) (htidy : d.Tidy)
    (hlen : ∀ row ∈ rows, row.length = d.fields.length) (hnew : ∀ row ∈ rows, row ∉ d.rows)
    (hnodup : rows.Nodup) (hne : rows ≠ [])
    (hfollow : e.followRows sec name .add rows = (.ok (), l))
    (hpersist : l.persist (storeRows sec name rows) = (.ok (), s)) :
    e.addRows sec name rows =
      (.ok true, s.setRows (e.model.modify sec name (·.insertAll rows)) true) := by
  have hmodel : s.model = e.model := by
    obtain ⟨store, rfl⟩ := persist_eq hpersist
    show l.model = e.model
    exact model_followRows hfollow
  rw [addRows_fit hd htidy hlen hnew hnodup hne, hfollow]
  dsimp only
  rw [hpersist]
  dsimp only
  rw [hmodel, Model.addMany_eq hsec hd hlen
    (fun row hrow => (htidy.contains_eq_false_iff row).2 (hnew row hrow)) hnodup]
  rfl

theorem ordersBySubject_modify (m : Model) (hsec : sec = "p" ∨ sec = "g")
    (f : Definition → Definition) : ordersBySubject (m.modify sec name f) = ordersBySubject m := by
  unfold ordersBySubject
  rw [Model.find?_modify, if_neg]
  rintro ⟨rfl, -⟩
  simp at hsec

/-- Where rows are not sorted, rows that fit are added to the model as they come, when their links and the
store take them. -/
theorem addRows_unsorted {e l s : Enforcer σ} {d : Definition} {rows : List Row}
    (hsec : sec = "p" ∨ sec = "g") (hd : e.model.find? sec name = some d) (htidy : d.Tidy)
    (hlen : ∀ row ∈ rows, row.length = d.fields.length) (hnew : ∀ row ∈ rows, row ∉ d.rows)
    (hnodup : rows.Nodup) (hne : rows ≠ []) (horder : ordersBySubject e.model = false)
    (hfollow : e.followRows sec name .add rows = (.ok (), l))
    (hpersist : l.persist (storeRows sec name rows) = (.ok (), s)) :
    e.addRows sec name rows =
      (.ok true, { s with model := e.model.modify sec name (·.insertAll rows) }) := by
  rw [addRows_eq hsec hd htidy hlen hnew hnodup hne hfollow hpersist]
  simp [setRows, ordersBySubject_modify e.model hsec, horder]

/-- While the store is left alone and rows are not sorted, rows that fit are added to the model as they
come. -/
theorem addRows_unsaved {e l : Enforcer σ} {d : Definition} {rows : List Row}
    (hsec : sec = "p" ∨ sec = "g") (hd : e.model.find? sec name = some d) (htidy : d.Tidy)
    (hlen : ∀ row ∈ rows, row.length = d.fields.length) (hnew : ∀ row ∈ rows, row ∉ d.rows)
    (hnodup : rows.Nodup) (hne : rows ≠ []) (hsave : l.config.autoSave = false)
    (horder : ordersBySubject e.model = false)
    (hfollow : e.followRows sec name .add rows = (.ok (), l)) :
    e.addRows sec name rows =
      (.ok true, { l with model := e.model.modify sec name (·.insertAll rows) }) :=
  addRows_unsorted hsec hd htidy hlen hnew hnodup hne horder hfollow (persist_unsaved hsave _)

end

/-! ## Dropping -/

section

variable {rows : List Row}

/-- How rows go out: they are there, the store is told, their links are dropped, and the model does not
have them any more. -/
structure Removed (e : Enforcer σ) (sec name : String) (rows : List Row) (d : Definition)
    (s l k : Enforcer σ) : Prop where
  section_eq : sec = "p" ∨ sec = "g"
  found : e.model.find? sec name = some d
  old : ∀ row ∈ rows, d.contains row = true
  stored : e.persist (unstoreRows sec name rows) = (.ok (), s)
  unlinked : s.followRows sec name .remove rows = (.ok (), l)
  after : k = l.setRows (e.model.modify sec name (·.eraseAll rows)) true

/-- The ends of a removal: nothing is touched; the store fails; links cannot be dropped; the section is
not one of rows; the rows are out. -/
inductive Removes (e : Enforcer σ) (sec name : String) (rows : List Row) :
    Except Error Bool → Enforcer σ → Prop where
  | refused {result : Except Error Bool} (hr : result ≠ .ok true) : Removes e sec name rows result e
  | unstored {s : Enforcer σ} {err : Error}
      (hstore : e.persist (unstoreRows sec name rows) = (.error err, s)) :
      Removes e sec name rows (.error err) s
  | linked {d : Definition} {s k : Enforcer σ} {err : Error} (hd : e.model.find? sec name = some d)
      (hold : ∀ row ∈ rows, d.contains row = true)
      (hstore : e.persist (unstoreRows sec name rows) = (.ok (), s))
      (hunlink : s.followRows sec name .remove rows = (.error err, k)) :
      Removes e sec name rows (.error err) k
  | misfiled {d : Definition} {s l : Enforcer σ} {err : Error} (hsec : ¬ (sec = "p" ∨ sec = "g"))
      (hd : e.model.find? sec name = some d)
      (hstore : e.persist (unstoreRows sec name rows) = (.ok (), s))
      (hunlink : s.followRows sec name .remove rows = (.ok (), l)) :
      Removes e sec name rows (.error err) l
  | removed {d : Definition} {s l k : Enforcer σ} (h : e.Removed sec name rows d s l k) :
      Removes e sec name rows (.ok true) k

theorem section_of_removeMany {m l : Model} {changed : Bool}
    (h : m.removeMany sec name rows = .ok (l, changed)) : sec = "p" ∨ sec = "g" := by
  unfold Model.removeMany at h
  split at h
  · simp at h
  · next hd => exact Model.section_of_findRows hd

theorem removes_of_removeRows (h : e.removeRows sec name rows = (result, k)) :
    e.Removes sec name rows result k := by
  unfold removeRows at h
  split at h
  · obtain ⟨rfl, rfl⟩ := Prod.mk.inj h
    exact .refused (by simp)
  · next d hd =>
    have hd := Model.find?_of_find hd
    split at h
    · obtain ⟨rfl, rfl⟩ := Prod.mk.inj h
      exact .refused (by simp)
    · next hthere =>
      rw [Bool.or_eq_true, not_or, Bool.not_eq_true, Bool.not_eq_true, Bool.not_eq_false'] at hthere
      have hold := List.all_eq_true.1 hthere.2
      split at h
      · next hstore =>
        obtain ⟨rfl, rfl⟩ := Prod.mk.inj h
        exact .unstored hstore
      · next s hstore =>
        split at h
        · next hunlink =>
          obtain ⟨rfl, rfl⟩ := Prod.mk.inj h
          exact .linked hd hold hstore hunlink
        · next l hunlink =>
          rw [(model_followRows hunlink).trans (model_persist hstore)] at h
          by_cases hsec : sec = "p" ∨ sec = "g"
          · rw [Model.removeMany_eq hsec hd hthere.2] at h
            obtain ⟨rfl, rfl⟩ := Prod.mk.inj h
            exact .removed ⟨hsec, hd, hold, hstore, hunlink, rfl⟩
          · obtain ⟨err, herr⟩ := finishChange_error (e := l) fun m changed hremove =>
              hsec (section_of_removeMany hremove)
            obtain ⟨rfl, rfl⟩ := Prod.mk.inj (herr.symm.trans h)
            exact .misfiled hsec hd hstore hunlink

theorem removeRows_true (h : e.removeRows sec name rows = (.ok true, k)) :
    ∃ d s l, e.Removed sec name rows d s l k := by
  cases removes_of_removeRows h with
  | refused hr => exact absurd rfl hr
  | removed hremoved => exact ⟨_, _, _, hremoved⟩

/-- Rows that are there are dropped, when the store takes it and their links can be dropped. -/
theorem removeRows_eq {d : Definition} {s l : Enforcer σ} (hsec : sec = "p" ∨ sec = "g")
    (hd : e.model.find? sec name = some d) (hold : ∀ row ∈ rows, d.contains row = true)
    (hne : rows ≠ []) (hstored : e.persist (unstoreRows sec name rows) = (.ok (), s))
    (hunlinked : s.followRows sec name .remove rows = (.ok (), l)) :
    e.removeRows sec name rows =
      (.ok true, l.setRows (e.model.modify sec name (·.eraseAll rows)) true) := by
  have hmodel : l.model = e.model := by
    obtain ⟨store, rfl⟩ := persist_eq hstored
    exact (model_followRows hunlinked).trans rfl
  have hall : rows.all d.contains = true := List.all_eq_true.2 hold
  unfold removeRows Model.find
  rw [hd]
  dsimp only
  rw [if_neg (by simpa [hall] using hne), hstored]
  dsimp only
  rw [hunlinked]
  dsimp only
  rw [hmodel, Model.removeMany_eq hsec hd hall]
  rfl

end

/-! ## Dropping by fields -/

section

variable {index : Nat} {values : List String}

/-- The ends of a removal by fields: nothing is touched; the store fails; the section is not one of rows;
there are no such rows; links cannot be dropped; the rows are out. -/
inductive RemovesFiltered (e : Enforcer σ) (sec name : String) (index : Nat) (values : List String) :
    Except Error Bool → Enforcer σ → Prop where
  | refused {err : Error} : RemovesFiltered e sec name index values (.error err) e
  | unstored {s : Enforcer σ} {err : Error}
      (hstore : e.persist (fun s => PolicyStore.removeFiltered s sec name index values) =
        (.error err, s)) : RemovesFiltered e sec name index values (.error err) s
  | misfiled {d : Definition} {s : Enforcer σ} {err : Error} (hsec : ¬ (sec = "p" ∨ sec = "g"))
      (hd : e.model.find? sec name = some d)
      (hstore : e.persist (fun s => PolicyStore.removeFiltered s sec name index values) = (.ok (), s)) :
      RemovesFiltered e sec name index values (.error err) s
  | none {d : Definition} {s : Enforcer σ} {m : Model} (hd : e.model.find? sec name = some d)
      (hstore : e.persist (fun s => PolicyStore.removeFiltered s sec name index values) = (.ok (), s))
      (hremove : e.model.removeFiltered sec name index values = .ok (m, [])) :
      RemovesFiltered e sec name index values (.ok false) { s with model := m }
  | linked {d : Definition} {s k : Enforcer σ} {m : Model} {removed : List Row} {err : Error}
      (hd : e.model.find? sec name = some d)
      (hstore : e.persist (fun s => PolicyStore.removeFiltered s sec name index values) = (.ok (), s))
      (hremove : e.model.removeFiltered sec name index values = .ok (m, removed))
      (hunlink : ({ s with model := m } : Enforcer σ).followRows sec name .remove removed =
        (.error err, k)) : RemovesFiltered e sec name index values (.error err) k
  | removed {d : Definition} {s l : Enforcer σ} {m : Model} {removed : List Row}
      (hd : e.model.find? sec name = some d)
      (hstore : e.persist (fun s => PolicyStore.removeFiltered s sec name index values) = (.ok (), s))
      (hremove : e.model.removeFiltered sec name index values = .ok (m, removed))
      (hunlink : ({ s with model := m } : Enforcer σ).followRows sec name .remove removed =
        (.ok (), l)) : RemovesFiltered e sec name index values (.ok true) (l.setRows m true)

theorem not_section_of_removeFiltered {m : Model} {err : Error} {d : Definition}
    (hd : m.find? sec name = some d) (h : m.removeFiltered sec name index values = .error err) :
    ¬ (sec = "p" ∨ sec = "g") := by
  intro hsec
  unfold Model.removeFiltered at h
  rw [Model.findRows_eq hsec hd] at h
  dsimp only at h
  split at h <;> simp at h

theorem removesFiltered_of_removeFiltered (h : e.removeFiltered sec name index values = (result, k)) :
    e.RemovesFiltered sec name index values result k := by
  unfold removeFiltered at h
  split at h
  · obtain ⟨rfl, rfl⟩ := Prod.mk.inj h
    exact .refused
  · next d hd =>
    have hd := Model.find?_of_find hd
    split at h
    · next hstore =>
      obtain ⟨rfl, rfl⟩ := Prod.mk.inj h
      exact .unstored hstore
    · next s hstore =>
      rw [model_persist hstore] at h
      split at h
      · next hremove =>
        obtain ⟨rfl, rfl⟩ := Prod.mk.inj h
        exact .misfiled (not_section_of_removeFiltered hd hremove) hd hstore
      · next hremove =>
        obtain ⟨rfl, rfl⟩ := Prod.mk.inj h
        exact .none hd hstore hremove
      · next hremove =>
        split at h
        · next hunlink =>
          obtain ⟨rfl, rfl⟩ := Prod.mk.inj h
          exact .linked hd hstore hremove hunlink
        · next hunlink =>
          rw [model_followRows hunlink] at h
          obtain ⟨rfl, rfl⟩ := Prod.mk.inj h
          exact .removed hd hstore hremove hunlink

end

/-! ## Updating -/

section

variable {old new : Row}

/-- The ends of an update: nothing is touched; the links refuse it; the store fails and the links are taken
back; the section is not one of rows; the new row is in the place of the old one. -/
inductive Updates (e : Enforcer σ) (sec name : String) (old new : Row) :
    Except Error Bool → Enforcer σ → Prop where
  | refused {result : Except Error Bool} (hr : result ≠ .ok true) : Updates e sec name old new result e
  | unlinked {d : Definition} {k : Enforcer σ} {err : Error} (hd : e.model.find? sec name = some d)
      (hrow : d.Replaces old new) (hlink : e.relinkRow sec name old new = (.error err, k)) :
      Updates e sec name old new (.error err) k
  | unstored {d : Definition} {l s k : Enforcer σ} {err failure : Error} {undone : Except Error Unit}
      (hd : e.model.find? sec name = some d) (hrow : d.Replaces old new)
      (hlink : e.relinkRow sec name old new = (.ok (), l))
      (hstore : l.persist (fun s => PolicyStore.update s sec name old new) = (.error err, s))
      (hundo : s.unlinkRow sec name old new = (undone, k)) :
      Updates e sec name old new (.error failure) k
  | misfiled {d : Definition} {l s : Enforcer σ} {err : Error} (hsec : ¬ (sec = "p" ∨ sec = "g"))
      (hd : e.model.find? sec name = some d) (hlink : e.relinkRow sec name old new = (.ok (), l))
      (hstore : l.persist (fun s => PolicyStore.update s sec name old new) = (.ok (), s)) :
      Updates e sec name old new (.error err) s
  | updated {d : Definition} {l s : Enforcer σ} (hsec : sec = "p" ∨ sec = "g")
      (hd : e.model.find? sec name = some d) (hrow : d.Replaces old new)
      (hlink : e.relinkRow sec name old new = (.ok (), l))
      (hstore : l.persist (fun s => PolicyStore.update s sec name old new) = (.ok (), s)) :
      Updates e sec name old new (.ok (d.rows.contains old))
        (s.setRows (e.model.modify sec name (·.replace old new)) (d.rows.contains old))

theorem section_of_replace {m l : Model} {changed : Bool}
    (h : m.replace sec name old new = .ok (l, changed)) : sec = "p" ∨ sec = "g" := by
  unfold Model.replace at h
  split at h
  · simp at h
  · next hd => exact Model.section_of_findRows hd

theorem updates_of_updateRow (h : e.updateRow sec name old new = (result, k)) :
    e.Updates sec name old new result k := by
  unfold updateRow at h
  split at h
  · obtain ⟨rfl, rfl⟩ := Prod.mk.inj h
    exact .refused (by simp)
  · next d hd =>
    have hd := Model.find?_of_find hd
    split at h
    · obtain ⟨rfl, rfl⟩ := Prod.mk.inj h
      exact .refused (by simp)
    · next hcheck =>
      split at h
      · obtain ⟨rfl, rfl⟩ := Prod.mk.inj h
        exact .refused (by simp)
      · next htest =>
        obtain ⟨hthere, hfree⟩ := (Model.replaces_iff d old new).1 htest
        have hrow : d.Replaces old new := ⟨(d.checkRow_ok_iff new).1 hcheck, hthere, hfree⟩
        split at h
        · next hlink =>
          obtain ⟨rfl, rfl⟩ := Prod.mk.inj h
          exact .unlinked hd hrow hlink
        · next l hlink =>
          split at h
          · next s hstore =>
            rw [(model_persist hstore).trans (model_relinkRow hlink)] at h
            by_cases hsec : sec = "p" ∨ sec = "g"
            · rw [Model.replace_eq hsec hd hrow.arity hthere hfree] at h
              obtain ⟨rfl, rfl⟩ := Prod.mk.inj h
              exact .updated hsec hd hrow hlink hstore
            · obtain ⟨err, herr⟩ := finishChange_error (e := s) fun m changed hreplace =>
                hsec (section_of_replace hreplace)
              obtain ⟨rfl, rfl⟩ := Prod.mk.inj (herr.symm.trans h)
              exact .misfiled hsec hd hlink hstore
          · next hstore =>
            split at h <;> next hundo =>
              obtain ⟨rfl, rfl⟩ := Prod.mk.inj h
              exact .unstored hd hrow hlink hstore hundo

end

end Enforcer

end AccessControl
