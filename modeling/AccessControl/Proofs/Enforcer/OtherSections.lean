import AccessControl.Proofs.Enforcer.OtherModels
import AccessControl.Proofs.Enforcer.Edits
/-!
# Sections that hold no rows

Rows live in the definitions of policy and role rows.  A definition of another section, such as that of the
requests, has fields but never a row, so there is none to drop or to replace, and nothing happens.  An
addition is different: it is checked against the fields, the lines are stored, and only the model refuses the
section.  Stored lines of such a section cannot be loaded.

    m.NoStrayRows → m.Edits k → k.NoStrayRows                          (`Model.NoStrayRows.edits`)
    every reachable state has rows in the two sections only            (`Reachable.noStrayRows`)
    a batch that fits is refused, but stored; any other changes nothing
                                                                       (`addRows_other`)
    e.load.1 = .ok () → lines of another section are stored → no load goes through
                                                                       (`not_load_storeRows`)
-/

namespace AccessControl

namespace Model

/-! ## Definitions without rows -/

/-- Definitions in sections other than those of policy and role rows have no rows. -/
def NoStrayRows (m : Model) : Prop :=
  ∀ sec, ¬ (sec = "p" ∨ sec = "g") → ∀ name d, m.find? sec name = some d → d.rows = []

/-- Rows are changed in the sections of policy and role rows only. -/
theorem findRows_other (m : Model) {sec : String} (h : ¬ (sec = "p" ∨ sec = "g")) (name : String) :
    m.findRows sec name = .error (.policy (.unknownSection sec)) := by
  unfold findRows
  rw [if_neg (by simpa using h)]

theorem NoStrayRows.modify {m : Model} (hm : m.NoStrayRows) {sec : String} (hsec : sec = "p" ∨ sec = "g")
    (name : String) (f : Definition → Definition) : (m.modify sec name f).NoStrayRows := by
  intro other hother key d hd
  rw [find?_modify, if_neg] at hd
  · exact hm other hother key d hd
  · rintro ⟨rfl, -⟩
    exact hother hsec

theorem NoStrayRows.modifyAll {m : Model} (hm : m.NoStrayRows) {sec : String} (hsec : sec = "p" ∨ sec = "g")
    (f : Definition → Definition) : (m.modifyAll sec f).NoStrayRows := by
  intro other hother key d hd
  rw [find?_modifyAll, if_neg] at hd
  · exact hm other hother key d hd
  · rintro rfl
    exact hother hsec

theorem NoStrayRows.sortBySubject {m : Model} (hm : m.NoStrayRows) : m.sortBySubject.NoStrayRows := by
  intro other hother key d hd
  obtain ⟨levels, hl⟩ := m.find?_sortBySubject other key
  rw [hl, if_neg fun heq => hother (Or.inl heq)] at hd
  exact hm other hother key d hd

theorem NoStrayRows.clear {m : Model} (hm : m.NoStrayRows) : m.clear.NoStrayRows :=
  (hm.modifyAll (Or.inl rfl) Definition.clear).modifyAll (Or.inr rfl) Definition.clear

theorem NoStrayRows.changedAt {m k : Model} (hm : m.NoStrayRows) {sec name : String}
    (hsec : sec = "p" ∨ sec = "g") (h : Enforcer.ChangedAt m sec name k) : k.NoStrayRows := by
  rcases h with rfl | ⟨f, rfl, -⟩
  · exact hm
  · exact hm.modify hsec name f

theorem section_of_add {m k : Model} {sec name : String} {row : Row} {changed : Bool}
    (h : m.add sec name row = .ok (k, changed)) : sec = "p" ∨ sec = "g" := by
  by_contra hsec
  simp [Model.add, m.findRows_other hsec] at h

theorem NoStrayRows.add {m k : Model} (hm : m.NoStrayRows) {sec name : String} {row : Row} {changed : Bool}
    (h : m.add sec name row = .ok (k, changed)) : k.NoStrayRows := by
  rcases add_cases h with rfl | ⟨d, -, -, -, rfl⟩
  · exact hm
  · exact hm.modify (section_of_add h) name _

theorem NoStrayRows.apply {m : Model} (hm : m.NoStrayRows) (operation : Operation) :
    (m.apply operation).NoStrayRows := by
  cases operation with
  | define sec key value =>
    intro other hother name d hd
    rw [Model.apply, find?_define] at hd
    split at hd
    · rw [← Option.some.inj hd]
      rfl
    · exact hm other hother name d hd
  | add => exact outcome_of hm fun _ _ h => hm.add h
  | addMany =>
    refine outcome_of hm fun k _ h => ?_
    exact hm.changedAt (Enforcer.section_of_addMany h) (Enforcer.changedAt_addMany h)
  | addDuplicates sec name rows =>
    refine outcome_of hm fun k _ h => ?_
    by_cases hsec : sec = "p" ∨ sec = "g"
    · obtain ⟨d, -, -, rfl⟩ := addDuplicates_map_cases h
      exact hm.modify hsec name _
    · simp [Model.addDuplicates, m.findRows_other hsec, Except.map] at h
  | remove sec name row =>
    refine outcome_of hm fun k _ h => ?_
    by_cases hsec : sec = "p" ∨ sec = "g"
    · rw [remove_cases h]
      exact hm.modify hsec name _
    · simp [Model.remove, m.findRows_other hsec] at h
  | removeMany =>
    refine outcome_of hm fun k _ h => ?_
    exact hm.changedAt (Enforcer.section_of_removeMany h) (Enforcer.changedAt_removeMany h)
  | replace =>
    refine outcome_of hm fun k _ h => ?_
    exact hm.changedAt (Enforcer.section_of_replace h) (Enforcer.changedAt_replace h)
  | removeFiltered sec name index values =>
    refine outcome_of hm fun k _ h => ?_
    by_cases hsec : sec = "p" ∨ sec = "g"
    · exact hm.changedAt hsec (Enforcer.changedAt_removeFiltered h)
    · simp [Model.removeFiltered, m.findRows_other hsec] at h
  | clear => exact hm.clear
  | sortByPriority => exact hm.modifyAll (Or.inl rfl) _
  | sortBySubject => exact hm.sortBySubject

theorem Built.noStrayRows {m : Model} (h : m.Built) : m.NoStrayRows := by
  obtain ⟨operations, rfl⟩ := h
  have hrun : ∀ m : Model, m.NoStrayRows → (m.run operations).NoStrayRows := by
    induction operations with
    | nil => exact fun _ hm => hm
    | cons operation rest ih => exact fun m hm => ih _ (hm.apply operation)
  exact hrun {} fun _ _ name d hd => by simp [find?] at hd

theorem NoStrayRows.addLines {m k : Model} (hm : m.NoStrayRows) {lines : List Line}
    (h : m.addLines lines = (.ok (), k)) : k.NoStrayRows := by
  induction lines generalizing m with
  | nil => exact (Prod.mk.inj h).2 ▸ hm
  | cons line rest ih =>
    unfold Model.addLines at h
    split at h
    · next l hl =>
      refine ih ?_ h
      unfold addLine at hl
      split at hl
      · exact Except.ok.inj hl ▸ hm
      · split at hl
        · next hadd =>
          rw [← Except.ok.inj hl]
          exact hm.add hadd
        · simp at hl
    · simp at h

theorem NoStrayRows.sorted {m : Model} (hm : m.NoStrayRows) : m.sorted.NoStrayRows := by
  have hsorted : m.sortByPriority.NoStrayRows := hm.apply .sortByPriority
  unfold Model.sorted
  dsimp only
  split
  · exact hsorted.sortBySubject
  · exact hsorted

theorem NoStrayRows.edits {m k : Model} (hm : m.NoStrayRows) (h : m.Edits k) : k.NoStrayRows := by
  cases h with
  | same => exact hm
  | changed =>
    unfold resorted
    split
    · exact (hm.apply _).sortBySubject
    · exact hm.apply _
  | unlinked => exact hm.apply _
  | cleared => exact hm.clear
  | loaded hlines => exact (hm.clear.addLines hlines).sorted

/-- Lines that a model takes are those of policy and role rows. -/
theorem section_of_addLines {m k : Model} {lines : List Line} (h : m.addLines lines = (.ok (), k))
    {name : String} {row : Row} (hline : name :: row ∈ lines) :
    sectionOf name = "p" ∨ sectionOf name = "g" := by
  induction lines generalizing m with
  | nil => simp at hline
  | cons line rest ih =>
    unfold Model.addLines at h
    split at h
    · next l hl =>
      rcases List.mem_cons.1 hline with rfl | hline
      · unfold addLine at hl
        dsimp only at hl
        split at hl
        · next hadd => exact section_of_add hadd
        · simp at hl
      · exact ih h hline
    · simp at h

end Model

namespace Enforcer

/-! ## Every state -/

section

variable {σ : Type} [PolicyStore σ]

theorem managed_setModel {e k : Enforcer σ} (h : e.Managed) {model : Model} {result : Except Error Unit}
    (hrun : e.setModel model = (result, k)) : k.Managed := by
  rcases setModel_cases hrun with rfl | hload
  · exact h
  · exact (sameSetup_load hload).managed (managed_initManagers { e with model, managers := [] })

/-- In every state every role definition has a manager. -/
theorem Reachable.managed {start : Enforcer σ → Prop} {allowed : Enforcer σ → Call σ → Prop}
    (hstart : ∀ e, start e → e.Made) {e : Enforcer σ} (h : Reachable start allowed e) : e.Managed := by
  induction h with
  | start h =>
    obtain ⟨model, store, config, -, hmake⟩ := hstart _ h
    exact (sameSetup_load (make_ok hmake).2).managed (managed_initManagers _)
  | step c _ _ ih =>
    cases hc : c.keepsDefinitions with
    | true => exact managed_perform ih hc
    | false =>
      cases c with
      | setModel model hbuilt => exact managed_setModel ih rfl
      | _ => simp [Call.keepsDefinitions] at hc

/-- What holds of built models, and is kept by edits, holds of the model in every state. -/
theorem Reachable.model_of_edits {P : Model → Prop} (hbuilt : ∀ m : Model, m.Built → P m)
    (hedits : ∀ m k : Model, m.Edits k → P m → P k) {allowed : Enforcer σ → Call σ → Prop}
    {e : Enforcer σ} (h : Reachable Made allowed e) : P e.model := by
  induction h with
  | start h =>
    obtain ⟨m, k, lines, hm, hlines, hmodel⟩ := h.loaded
    exact hmodel ▸ hedits m _ (.loaded hlines) (hbuilt m hm)
  | @step e c h _ ih =>
    cases hc : c.keepsDefinitions with
    | true => exact hedits _ _ (edits_perform (h.valid fun _ h => h) (h.managed fun _ h => h) hc) ih
    | false =>
      cases c with
      | setModel model hm =>
        rcases setModel_cases (Prod.mk.eta (p := e.setModel model)).symm with hsame | hload
        · exact (congrArg Enforcer.model hsame).symm ▸ ih
        · exact hedits model _ (edits_finishLoad (e := e.withModel model) hload) (hbuilt model hm)
      | _ => simp [Call.keepsDefinitions] at hc

/-- In every state only definitions of policy and role rows have rows. -/
theorem Reachable.noStrayRows {allowed : Enforcer σ → Call σ → Prop} {e : Enforcer σ}
    (h : Reachable Made allowed e) : e.model.NoStrayRows :=
  h.model_of_edits (fun _ hm => hm.noStrayRows) fun _ _ hedits hm => hm.edits hedits

end

/-! ## Changes of rows -/

theorem followRows_other {σ : Type} (e : Enforcer σ) {sec : String} (hsec : ¬ (sec = "p" ∨ sec = "g"))
    (name : String) (change : LinkChange) (rows : List Row) :
    e.followRows sec name change rows = (.ok (), e) := by
  unfold followRows
  rw [if_neg]
  rw [Bool.and_eq_true, decide_eq_true_eq]
  rintro ⟨rfl, -⟩
  exact hsec (Or.inr rfl)

section

variable {σ : Type} [PolicyStore σ] {e : Enforcer σ} (hmodel : e.model.WellFormed)
  (hidle : e.model.NoStrayRows) {sec : String} (hsec : ¬ (sec = "p" ∨ sec = "g")) (name : String)

include hmodel hidle hsec

omit [PolicyStore σ] in
/-- A definition of another section holds no row. -/
theorem contains_other {d : Definition} (hd : e.model.find? sec name = some d) (row : Row) :
    d.contains row = false := by
  rw [(hmodel.tidy sec name d hd).contains_eq_false_iff, hidle sec hsec name d hd]
  exact List.not_mem_nil

/-- There is no row to drop. -/
theorem removeRows_other (rows : List Row) : (e.removeRows sec name rows).2 = e := by
  unfold removeRows
  split
  · rfl
  · next d hd =>
    rw [if_pos]
    cases rows with
    | nil => rfl
    | cons row rest =>
      simp [contains_other hmodel hidle hsec name (Model.find?_of_find hd) row]

/-- There is no row to replace. -/
theorem updateRow_other (old new : Row) : (e.updateRow sec name old new).2 = e := by
  unfold updateRow
  split
  · rfl
  · next d hd =>
    split
    · rfl
    · rw [if_pos]
      simp [contains_other hmodel hidle hsec name (Model.find?_of_find hd) old]

end

/-- Whether a definition could take a batch if it had no rows: its rows fit, and no two are the same. -/
def FitsBatch (e : Enforcer MemoryStore) (sec name : String) (rows : List Row) : Prop :=
  ∃ d, e.model.find? sec name = some d ∧ rows ≠ [] ∧ rows.Nodup ∧
    ∀ row ∈ rows, row.length = d.fields.length

section

variable {e : Enforcer MemoryStore} (hsave : e.config.autoSave = true) {sec : String}
  (hsec : ¬ (sec = "p" ∨ sec = "g")) (name : String)

include hsave hsec

/-- A batch that fits goes to the store before the section is noticed. -/
theorem addRows_other (hmodel : e.model.WellFormed) (hidle : e.model.NoStrayRows) (rows : List Row) :
    (¬ e.FitsBatch sec name rows ∧ (e.addRows sec name rows).2 = e) ∨
      (e.FitsBatch sec name rows ∧ e.addRows sec name rows = (.error (.policy (.unknownSection sec)),
        { e with store := (storeRows sec name rows e.store).2 })) := by
  by_cases hfits : e.FitsBatch sec name rows
  · obtain ⟨d, hd, hne, hnodup, hlen⟩ := id hfits
    refine Or.inr ⟨hfits, ?_⟩
    have hnew : ∀ row ∈ rows, row ∉ d.rows := by
      rw [hidle sec hsec name d hd]
      exact fun row _ => List.not_mem_nil
    rw [addRows_fit hd (hmodel.tidy sec name d hd) hlen hnew hnodup hne, followRows_other e hsec]
    dsimp only
    rw [persist_storeRows hsave]
    dsimp only
    rw [Model.addMany, e.model.findRows_other hsec]
    rfl
  · refine Or.inl ⟨hfits, ?_⟩
    unfold addRows
    split
    · rfl
    · next d hd =>
      split
      · rfl
      · next hcheck =>
        rw [if_pos]
        by_contra hrepeats
        rw [Bool.or_eq_true, not_or, Bool.not_eq_true, Bool.not_eq_true] at hrepeats
        obtain ⟨hempty, hnew⟩ := hrepeats
        refine hfits ⟨d, Model.find?_of_find hd, ?_, ((d.repeatsRow_eq_false_iff rows).1 hnew).2,
          (d.checkRows_ok_iff rows).1 hcheck⟩
        rintro rfl
        simp at hempty

/-- Stored lines with the name go before the section is noticed. -/
theorem removeFiltered_other (index : Nat) (values : List String) :
    (e.removeFiltered sec name index values).2 = e ∨
      (∃ line ∈ e.store.lines, MemoryStore.lineMatches name index values line = true) ∧
        e.removeFiltered sec name index values = (.error (.policy (.unknownSection sec)),
          { e with store := (e.store.removeFiltered name index values).2 }) := by
  have hpersist : e.persist (fun s => PolicyStore.removeFiltered s sec name index values) =
      (.ok (), { e with store := (e.store.removeFiltered name index values).2 }) := by
    unfold persist
    rw [if_pos hsave]
    rfl
  have hremove : e.model.removeFiltered sec name index values =
      .error (.policy (.unknownSection sec)) := by
    rw [Model.removeFiltered, e.model.findRows_other hsec]
  cases hd : e.model.find sec name with
  | error err =>
    refine Or.inl ?_
    rw [removeFiltered, hd]
  | ok d =>
    have heq : e.removeFiltered sec name index values = (.error (.policy (.unknownSection sec)),
        { e with store := (e.store.removeFiltered name index values).2 }) := by
      unfold removeFiltered
      rw [hd]
      dsimp only
      rw [hpersist]
      dsimp only
      rw [hremove]
    by_cases hmatch : ∃ line ∈ e.store.lines, MemoryStore.lineMatches name index values line = true
    · exact Or.inr ⟨hmatch, heq⟩
    · refine Or.inl ?_
      have hsame : (e.store.removeFiltered name index values).2 = e.store := by
        have hkept : e.store.lines.filter (fun line => !MemoryStore.lineMatches name index values line) =
            e.store.lines := by
          rw [List.filter_eq_self]
          intro line hline
          rw [Bool.not_eq_true', ← Bool.not_eq_true]
          exact fun htrue => hmatch ⟨line, hline, htrue⟩
        exact MemoryStore.ext hkept rfl
      rw [heq, hsame]

end

/-! ## Loads -/

/-- Lines that can be loaded are those of policy and role rows. -/
theorem section_of_load {e : Enforcer MemoryStore} (h : e.load.1 = .ok ()) {name : String} {row : Row}
    (hline : name :: row ∈ e.store.lines) : sectionOf name = "p" ∨ sectionOf name = "g" := by
  have hrun : e.load = (.ok (), e.load.2) := Prod.ext h rfl
  obtain ⟨l, hl, -⟩ := model_finishLoad_ok hrun
  exact Model.section_of_addLines hl hline

section

variable {e : Enforcer MemoryStore} (hload : e.load.1 = .ok ()) {name : String}
  (hname : ¬ (sectionOf name = "p" ∨ sectionOf name = "g"))

include hload hname

theorem not_lineMatches_of_load (index : Nat) (values : List String) :
    ¬ ∃ line ∈ e.store.lines, MemoryStore.lineMatches name index values line = true := by
  rintro ⟨line, hline, hmatch⟩
  match line, hmatch with
  | head :: fields, hmatch =>
    rw [MemoryStore.lineMatches, Bool.and_eq_true, beq_iff_eq] at hmatch
    obtain ⟨rfl, -⟩ := hmatch
    exact hname (section_of_load hload hline)

/-- Lines of another section stop every load. -/
theorem not_load_storeRows {sec : String} {rows : List Row} (hne : rows ≠ []) :
    ({ e with store := (storeRows sec name rows e.store).2 } : Enforcer MemoryStore).load.1 ≠ .ok () := by
  intro hagain
  obtain ⟨row, hrow⟩ := List.exists_mem_of_ne_nil rows hne
  have hnew : ∀ row ∈ rows, name :: row ∉ e.store.lines := fun _ _ hline =>
    hname (section_of_load hload hline)
  have hstored : name :: row ∈ (storeRows sec name rows e.store).2.lines :=
    (mem_storeRows hnew _).2 (Or.inr (List.mem_map_of_mem hrow))
  exact hname (section_of_load hagain hstored)

end

/-! ## A request that is stored -/

theorem load_oneAllowed : oneAllowed.load.1 = .ok () := by
  have hlines : oneAllowed.model.clear.addLines ([["ann"]].map ("p" :: ·)) = (.ok (), _) :=
    Model.addLines_rows (Or.inl rfl) rfl rfl (Definition.tidy_clear _) (by decide) (by decide) (by decide)
  have hread : PolicyStore.load oneAllowed.store oneAllowed.model.clear = (.ok (), _, _) :=
    PolicyStore.finishLoad_ok hlines rfl
  unfold load
  rw [hread]
  rfl

/-- Requests have one field. -/
theorem fitsBatch_oneAllowed (subject : String) : oneAllowed.FitsBatch "r" "r" [[subject]] :=
  ⟨.make "r" "r" "sub", rfl, by simp, by simp, by simp; rfl⟩

/-! ## Top theorem (proved from the lemmas above) -/

/-- **Sections that hold no rows.**  In every state over a store in memory, while changes are saved at once,
let a section be neither that of policy rows nor that of role rows.  Removals and updates in it change
nothing.  An addition changes nothing unless a definition of the section could take the rows; then it is
refused for its section, but the rows are stored, while the model, the links and all else stay.  A removal by
fields changes nothing unless some stored line has the name and the fields.  So if the store can be loaded,
and the name does not begin like that of policy or role rows, removals by fields change nothing, and after an
addition the store can still be loaded exactly when no definition could take the rows. -/
theorem changes_other_section {allowed : Enforcer MemoryStore → Call MemoryStore → Prop}
    {e : Enforcer MemoryStore} (h : Reachable Made allowed e) (hsave : e.config.autoSave = true)
    {sec : String} (hsec : ¬ (sec = "p" ∨ sec = "g")) (name : String) :
    (∀ rows, (e.removeRows sec name rows).2 = e) ∧
    (∀ old new, (e.updateRow sec name old new).2 = e) ∧
    (∀ rows, (¬ e.FitsBatch sec name rows ∧ (e.addRows sec name rows).2 = e) ∨
      (e.FitsBatch sec name rows ∧ e.addRows sec name rows = (.error (.policy (.unknownSection sec)),
        { e with store := (storeRows sec name rows e.store).2 }))) ∧
    (∀ index values, (e.removeFiltered sec name index values).2 = e ∨
      (∃ line ∈ e.store.lines, MemoryStore.lineMatches name index values line = true) ∧
        e.removeFiltered sec name index values = (.error (.policy (.unknownSection sec)),
          { e with store := (e.store.removeFiltered name index values).2 })) ∧
    (e.load.1 = .ok () → ¬ (sectionOf name = "p" ∨ sectionOf name = "g") →
      (∀ index values, (e.removeFiltered sec name index values).2 = e) ∧
      ∀ rows, (e.addRows sec name rows).2.load.1 = .ok () ↔ ¬ e.FitsBatch sec name rows) := by
  have hmodel := (h.valid fun _ hmade => hmade).model
  have hidle := h.noStrayRows
  have hadd := addRows_other hsave hsec name hmodel hidle
  have hremove := removeFiltered_other hsave hsec name
  refine ⟨removeRows_other hmodel hidle hsec name, updateRow_other hmodel hidle hsec name, hadd,
    hremove, ?_⟩
  intro hload hname
  constructor
  · intro index values
    rcases hremove index values with hsame | ⟨hmatch, -⟩
    · exact hsame
    · exact absurd hmatch (not_lineMatches_of_load hload hname index values)
  · intro rows
    rcases hadd rows with ⟨hunfit, hsame⟩ | ⟨hfits, heq⟩
    · rw [hsame]
      exact iff_of_true hload hunfit
    · obtain ⟨d, -, hne, -⟩ := id hfits
      rw [heq]
      exact iff_of_false (not_load_storeRows hload hname hne) (not_not_intro hfits)

/-- After a row for a request was to be added, rows cannot be loaded; a row that does not fit does no harm. -/
theorem changes_other_section_requests : ∃ e : Enforcer MemoryStore,
    Reachable Made (fun _ _ => True) e ∧ e.config.autoSave = true ∧ e.load.1 = .ok () ∧
      (e.addRows "r" "r" [["bob"]]).2.load.1 ≠ .ok () ∧
        (e.addRows "r" "r" [["bob", "data"]]).2.load.1 = .ok () ∧
          (e.removeFiltered "r" "r" 0 ["ann"]).2 = e := by
  have hsec : ¬ ("r" = "p" ∨ "r" = "g") := by decide
  obtain ⟨-, -, -, -, hloads⟩ := changes_other_section reachable_oneAllowed rfl hsec "r"
  obtain ⟨hremove, hadd⟩ := hloads load_oneAllowed (by decide)
  refine ⟨_, reachable_oneAllowed, rfl, load_oneAllowed, ?_, ?_, hremove 0 ["ann"]⟩
  · rw [ne_eq, hadd, not_not]
    exact fitsBatch_oneAllowed "bob"
  · rw [hadd]
    rintro ⟨d, hd, -, -, hlen⟩
    obtain rfl : d = .make "r" "r" "sub" := Option.some.inj hd.symm
    exact absurd hlen (by decide)

/-- Not every change in such a section leaves the store: an addition is refused, and its line is stored. -/
theorem not_always_other_section_kept : ¬ ∀ (e : Enforcer MemoryStore) (sec name : String)
    (rows : List Row), Reachable Made (fun _ _ => True) e → e.config.autoSave = true →
      ¬ (sec = "p" ∨ sec = "g") → (e.addRows sec name rows).2.store.lines = e.store.lines ∧
        (e.load.1 = .ok () → (e.addRows sec name rows).2.load.1 = .ok ()) := by
  intro hall
  have hsec : ¬ ("r" = "p" ∨ "r" = "g") := by decide
  obtain ⟨hlines, -⟩ := hall oneAllowed "r" "r" [["bob"]] reachable_oneAllowed rfl hsec
  have hvalid := reachable_oneAllowed.valid fun _ h => h
  rcases addRows_other (e := oneAllowed) rfl hsec "r" hvalid.model reachable_oneAllowed.noStrayRows [["bob"]] with
    ⟨hunfit, -⟩ | ⟨-, heq⟩
  · exact hunfit (fitsBatch_oneAllowed "bob")
  · rw [heq] at hlines
    exact absurd hlines (by decide)

end Enforcer

end AccessControl
