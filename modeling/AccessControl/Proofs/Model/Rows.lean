import AccessControl.Model.Basic
import AccessControl.Proofs.Model.Index
import AccessControl.Proofs.Table
import AccessControl.Store.Line
/-!
# Models and their rows

A model is well formed when its definitions are found under their own names and are tidy.  Everything
that changes rows keeps it so and leaves the definitions as they are (`Model.bare`); what it does to the
rows is told by what is found afterwards.

    (m.modify sec name f).find? sec name = (m.find? sec name).map f    (`find?_modify`)
    k.bare = m.bare: the same definitions, whatever their rows
-/

namespace AccessControl

namespace Table

variable {α β : Type}

theorem map_values_update (t : Table α) (k : String) (f : α → α) (g : α → β)
    (h : ∀ a, g (f a) = g a) : (t.update k f).map (fun e => (e.1, g e.2)) =
      t.map fun e => (e.1, g e.2) := by
  induction t with
  | nil => rfl
  | cons e rest ih =>
    obtain ⟨l, b⟩ := e
    by_cases hl : l = k
    · simp [update, hl, h]
    · simpa [update, hl] using ih

end Table

namespace Model

/-! ## What is found -/

theorem find?_modify (m : Model) (sec name : String) (f : Definition → Definition)
    (other otherName : String) :
    (m.modify sec name f).find? other otherName =
      if sec = other ∧ name = otherName then (m.find? other otherName).map f
      else m.find? other otherName := by
  simp only [find?, modify, Table.find_update]
  by_cases hsec : sec = other
  · subst hsec
    cases m.sections.find sec <;> by_cases hname : name = otherName <;>
      simp [hname, Table.find_update]
  · simp [hsec]

/-- What is found where a definition was changed. -/
theorem find?_modify_self {m : Model} {sec name : String} {d : Definition}
    (hd : m.find? sec name = some d) (f : Definition → Definition) :
    (m.modify sec name f).find? sec name = some (f d) := by
  rw [find?_modify, if_pos ⟨rfl, rfl⟩, hd, Option.map_some]

theorem modify_modify (m : Model) (sec name : String) (f g : Definition → Definition) :
    (m.modify sec name f).modify sec name g = m.modify sec name fun d => g (f d) := by
  simp only [modify, Table.update_update]

/-- A change that leaves every definition as it is. -/
theorem modify_same (m : Model) (sec name : String) : (m.modify sec name fun d => d) = m :=
  congrArg Model.mk (Table.update_of_find fun _ _ => Table.update_of_find fun _ _ => rfl)

theorem find?_modifyAll (m : Model) (sec : String) (f : Definition → Definition)
    (other name : String) :
    (m.modifyAll sec f).find? other name =
      if sec = other then (m.find? other name).map f else m.find? other name := by
  simp only [find?, modifyAll, Table.find_update]
  by_cases hsec : sec = other
  · subst hsec
    cases m.sections.find sec <;> simp [Table.find_mapValues]
  · simp [hsec]

theorem find?_define (m : Model) (sec key value other name : String) :
    (m.define sec key value).1.find? other name =
      if value.isEmpty = false ∧ sec = other ∧ key = name then some (.make sec key value)
      else m.find? other name := by
  unfold define
  cases hv : value.isEmpty
  · simp only [Bool.false_eq_true, if_false, find?, Table.find_put]
    by_cases hsec : sec = other
    · subst hsec
      by_cases hkey : key = name
      · simp [hkey]
      · cases m.sections.find sec <;> simp [hkey, Table.find_put]
    · simp [hsec]
  · simp

/-- A definition is sorted with the levels known by then, of which whatever sorting keeps is true. -/
theorem find_sortAllBySubject {h : Hierarchy} {Right : Table Nat → Prop}
    (hright : ∀ (d : Definition) known, Right known → Right (d.sortBySubject h known).2)
    {known : Table Nat} (hknown : Right known) (defs : Table Definition) (name : String) :
    ∃ levels, Right levels ∧ (sortAllBySubject h known defs).find name =
      (defs.find name).map fun d => (d.sortBySubject h levels).1 := by
  induction defs generalizing known with
  | nil => exact ⟨known, hknown, rfl⟩
  | cons e rest ih =>
    obtain ⟨key, d⟩ := e
    by_cases hkey : key = name
    · exact ⟨known, hknown, by simp [sortAllBySubject, Table.find, hkey]⟩
    · obtain ⟨levels, hlevels, hl⟩ := ih (hright d known hknown)
      exact ⟨levels, hlevels, by simpa [sortAllBySubject, Table.find, hkey] using hl⟩

theorem find?_p_sortBySubject (m : Model) (Right : Table Nat → Prop) (hnil : Right [])
    (hright : ∀ (d : Definition) known, Right known → Right (d.sortBySubject m.hierarchy known).2)
    (name : String) : ∃ levels, Right levels ∧ m.sortBySubject.find? "p" name =
      (m.find? "p" name).map fun d => (d.sortBySubject m.hierarchy levels).1 := by
  simp only [find?, sortBySubject, Table.find_update_self]
  cases hdefs : m.sections.find "p" with
  | none => exact ⟨[], hnil, rfl⟩
  | some defs =>
    obtain ⟨levels, hlevels, hl⟩ := find_sortAllBySubject hright hnil defs name
    exact ⟨levels, hlevels, by simpa using hl⟩

/-- Sorting by subjects changes no other section. -/
theorem find?_sortBySubject_of_ne (m : Model) {sec : String} (hsec : sec ≠ "p") (name : String) :
    m.sortBySubject.find? sec name = m.find? sec name := by
  simp only [find?, sortBySubject, Table.find_update, if_neg (Ne.symm hsec)]

theorem find?_sortBySubject (m : Model) (sec name : String) :
    ∃ levels, m.sortBySubject.find? sec name =
      if sec = "p" then (m.find? sec name).map fun d => (d.sortBySubject m.hierarchy levels).1
      else m.find? sec name := by
  by_cases hsec : sec = "p"
  · subst hsec
    obtain ⟨levels, -, hl⟩ := m.find?_p_sortBySubject (fun _ => True) trivial
      (fun _ _ _ => trivial) name
    exact ⟨levels, by simpa using hl⟩
  · exact ⟨[], by simp [hsec, m.find?_sortBySubject_of_ne hsec]⟩

theorem rows_of_find? {m : Model} {sec name : String} {d : Definition} (h : m.find? sec name = some d) :
    m.rows sec name = d.rows := by
  unfold rows
  rw [h]
  rfl

/-- A change of one definition leaves the rows of the others. -/
theorem rows_modify_of_ne (m : Model) (sec name : String) (f : Definition → Definition)
    {other otherName : String} (h : ¬ (sec = other ∧ name = otherName)) :
    (m.modify sec name f).rows other otherName = m.rows other otherName := by
  rw [rows, find?_modify, if_neg h, rows]

/-! ## The definitions without their rows -/

/-- A model without its rows. -/
def bare (m : Model) : Model := ⟨m.sections.map fun e => (e.1, e.2.map fun d => (d.1, d.2.bare))⟩

theorem bare_update (m : Model) (sec : String) (f : Table Definition → Table Definition)
    (h : ∀ defs, (f defs).map (fun d => (d.1, d.2.bare)) = defs.map fun d => (d.1, d.2.bare)) :
    (⟨m.sections.update sec f⟩ : Model).bare = m.bare :=
  congrArg Model.mk (Table.map_values_update m.sections sec f _ h)

theorem bare_modify (m : Model) (sec name : String) {f : Definition → Definition}
    (h : ∀ d, (f d).bare = d.bare) : (m.modify sec name f).bare = m.bare :=
  m.bare_update sec _ fun defs => defs.map_values_update name f Definition.bare h

theorem bare_modifyAll (m : Model) (sec : String) {f : Definition → Definition}
    (h : ∀ d, (f d).bare = d.bare) : (m.modifyAll sec f).bare = m.bare :=
  m.bare_update sec _ fun defs => by simp [Table.mapValues, h]

@[simp] theorem bare_clear (m : Model) : m.clear.bare = m.bare := by
  rw [clear, bare_modifyAll _ _ Definition.bare_clear, bare_modifyAll _ _ Definition.bare_clear]

@[simp] theorem bare_sortByPriority (m : Model) : m.sortByPriority.bare = m.bare :=
  m.bare_modifyAll "p" Definition.bare_sortByPriority

@[simp] theorem bare_sortBySubject (m : Model) : m.sortBySubject.bare = m.bare := by
  refine m.bare_update "p" _ fun defs => ?_
  generalize ([] : Table Nat) = known
  induction defs generalizing known with
  | nil => rfl
  | cons e rest ih =>
    obtain ⟨name, d⟩ := e
    simp only [sortAllBySubject, List.map_cons, Definition.bare_sortBySubject]
    rw [ih]

theorem find_bare (m : Model) (sec : String) :
    m.bare.sections.find sec = (m.sections.find sec).map fun defs =>
      defs.map fun d => (d.1, d.2.bare) :=
  Table.find_mapValues m.sections sec _

theorem find?_bare (m : Model) (sec name : String) :
    m.bare.find? sec name = (m.find? sec name).map Definition.bare := by
  unfold find?
  rw [find_bare]
  cases m.sections.find sec with
  | none => rfl
  | some defs => exact Table.find_mapValues defs name Definition.bare

theorem definitions_bare (m : Model) (sec : String) :
    m.bare.definitions sec = (m.definitions sec).map Definition.bare := by
  unfold definitions
  rw [find_bare]
  cases m.sections.find sec with
  | none => rfl
  | some defs => simp [Table.values, Function.comp_def]

/-- A definition is in the one model exactly when it is in the other. -/
theorem find?_of_bare {m k : Model} (h : k.bare = m.bare) {sec name : String} {d : Definition}
    (hd : k.find? sec name = some d) : ∃ old, m.find? sec name = some old ∧ old.bare = d.bare := by
  have hbare := congrArg (fun x : Model => x.find? sec name) h
  simp only [find?_bare, hd, Option.map_some] at hbare
  obtain ⟨old, hold, heq⟩ := Option.map_eq_some_iff.1 hbare.symm
  exact ⟨old, hold, heq⟩

/-! ## Well-formed models -/

/-- Definitions have distinct names and are found under them. -/
structure Named (m : Model) : Prop where
  distinct : ∀ sec defs, m.sections.find sec = some defs → defs.keys.Nodup
  key : ∀ sec name d, m.find? sec name = some d → d.key = name

/-- Definitions are found under their names, and all are tidy. -/
structure WellFormed (m : Model) : Prop extends m.Named where
  tidy : ∀ sec name d, m.find? sec name = some d → d.Tidy

/-- No definition of policy or role rows holds a row twice. -/
def DistinctRows (m : Model) : Prop :=
  ∀ sec, sec = "p" ∨ sec = "g" → ∀ name d, m.find? sec name = some d → d.rows.Nodup

theorem Named.of_bare {m k : Model} (hm : m.Named) (h : k.bare = m.bare) : k.Named where
  distinct sec defs hdefs := by
    have hbare := congrArg (fun x : Model => x.sections.find sec) h
    simp only [find_bare, hdefs, Option.map_some] at hbare
    obtain ⟨old, hold, heq⟩ := Option.map_eq_some_iff.1 hbare.symm
    have hkeys := congrArg (List.map Prod.fst) heq
    simp only [List.map_map, Function.comp_def] at hkeys
    have hn := hm.distinct sec old hold
    rwa [Table.keys, hkeys] at hn
  key sec name d hd := by
    obtain ⟨old, hold, heq⟩ := find?_of_bare h hd
    rw [← Definition.key_eq heq]
    exact hm.key sec name old hold

/-- The definitions of a section are those that are found in it. -/
theorem Named.mem_definitions {m : Model} (h : m.Named) (sec : String) (d : Definition) :
    d ∈ m.definitions sec ↔ m.find? sec d.key = some d := by
  have hkey := h.key sec
  unfold definitions find? at *
  cases hdefs : m.sections.find sec with
  | none => simp
  | some defs =>
    have hn := h.distinct sec defs hdefs
    simp only [hdefs, Option.bind_some, Option.map_some, Option.getD_some, Table.mem_values] at hkey ⊢
    constructor
    · rintro ⟨name, hmem⟩
      have hfind := (Table.find_eq_some_iff hn name d).2 hmem
      rwa [hkey name d hfind]
    · intro hfind
      exact ⟨d.key, Table.mem_of_find hfind⟩

/-- The names of the definitions of a section are distinct. -/
theorem Named.nodup_keys {m : Model} (h : m.Named) (sec : String) :
    ((m.definitions sec).map (·.key)).Nodup := by
  have hkey := h.key sec
  unfold definitions find? at *
  cases hdefs : m.sections.find sec with
  | none => simp
  | some defs =>
    have hn := h.distinct sec defs hdefs
    simp only [hdefs, Option.bind_some] at hkey
    have hmap : (defs.values.map fun d => d.key) = defs.keys := by
      unfold Table.values Table.keys
      rw [List.map_map]
      refine List.map_congr_left fun e he => ?_
      exact hkey e.1 e.2 ((Table.find_eq_some_iff hn e.1 e.2).2 he)
    simpa [hmap] using hn

/-- A change of one definition that keeps it tidy keeps the model well formed. -/
theorem WellFormed.modify {m : Model} (h : m.WellFormed) (sec name : String)
    {f : Definition → Definition} (hbare : ∀ d, (f d).bare = d.bare)
    (htidy : ∀ d, m.find? sec name = some d → (f d).Tidy) : (m.modify sec name f).WellFormed where
  toNamed := h.toNamed.of_bare (m.bare_modify sec name hbare)
  tidy other otherName d hd := by
    rw [find?_modify] at hd
    split at hd
    · next heq =>
      obtain ⟨old, hold, rfl⟩ := Option.map_eq_some_iff.1 hd
      exact htidy old (by rw [heq.1, heq.2]; exact hold)
    · exact h.tidy other otherName d hd

theorem WellFormed.modifyAll {m : Model} (h : m.WellFormed) (sec : String)
    {f : Definition → Definition} (hbare : ∀ d, (f d).bare = d.bare)
    (htidy : ∀ d : Definition, d.Tidy → (f d).Tidy) : (m.modifyAll sec f).WellFormed where
  toNamed := h.toNamed.of_bare (m.bare_modifyAll sec hbare)
  tidy other name d hd := by
    rw [find?_modifyAll] at hd
    split at hd
    · obtain ⟨old, hold, rfl⟩ := Option.map_eq_some_iff.1 hd
      exact htidy old (h.tidy other name old hold)
    · exact h.tidy other name d hd

theorem WellFormed.clear {m : Model} (h : m.WellFormed) : m.clear.WellFormed :=
  (h.modifyAll "p" Definition.bare_clear fun d _ => d.tidy_clear).modifyAll "g" Definition.bare_clear
    fun d _ => d.tidy_clear

theorem WellFormed.sortByPriority {m : Model} (h : m.WellFormed) : m.sortByPriority.WellFormed :=
  h.modifyAll "p" Definition.bare_sortByPriority fun _ hd => hd.sortByPriority

theorem WellFormed.sortBySubject {m : Model} (h : m.WellFormed) : m.sortBySubject.WellFormed where
  toNamed := h.toNamed.of_bare m.bare_sortBySubject
  tidy sec name d hd := by
    obtain ⟨levels, hl⟩ := m.find?_sortBySubject sec name
    rw [hl] at hd
    split at hd
    · obtain ⟨old, hold, rfl⟩ := Option.map_eq_some_iff.1 hd
      exact (h.tidy sec name old hold).sortBySubject _ _
    · exact h.tidy sec name d hd

theorem wellFormed_empty : ({} : Model).WellFormed where
  distinct sec defs h := by simp at h
  key sec name d h := by simp [find?] at h
  tidy sec name d h := by simp [find?] at h

theorem WellFormed.define {m : Model} (h : m.WellFormed) (sec key value : String) :
    (m.define sec key value).1.WellFormed := by
  refine ⟨⟨fun other defs hdefs => ?_, fun other name d hd => ?_⟩, fun other name d hd => ?_⟩
  · unfold Model.define at hdefs
    split at hdefs
    · exact h.distinct other defs hdefs
    · simp only [Table.find_put] at hdefs
      split at hdefs
      · rw [← Option.some.inj hdefs]
        refine Table.nodup_keys_put ?_ _ _
        cases hold : m.sections.find sec with
        | none => exact List.nodup_nil
        | some old => exact h.distinct sec old hold
      · exact h.distinct other defs hdefs
  · rw [find?_define] at hd
    split at hd
    · next heq => rw [← Option.some.inj hd, ← heq.2.2]; rfl
    · exact h.key other name d hd
  · rw [find?_define] at hd
    split at hd
    · rw [← Option.some.inj hd]
      exact Definition.tidy_make sec key value
    · exact h.tidy other name d hd

end Model

end AccessControl
