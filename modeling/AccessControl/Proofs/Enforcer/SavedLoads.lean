import AccessControl.Proofs.Enforcer.PriorityOrder
import AccessControl.Proofs.Enforcer.RoleBased
import AccessControl.Proofs.Model.Reloaded
/-!
# Rows saved to a file and loaded again

The lines of a model that was read from a text come back from the file they are saved to, whatever their
fields hold, but for the blanks around the fields.  So an enforcer over a file whose fields have none, and
whose default effect does not go by subjects, gets every row back by a load, in order: its rows are distinct
and in the order of their priorities in every state, and loading them keeps both.  A load starts with no
rows, so an enforcer that has none of them, or others, gets the same ones.

    loading what was saved gives every row in its place                (`rows_of_saved`)
    a saved model is read as it is, and a load of it brings all rows   (`saved_and_loaded`)
-/

namespace AccessControl

namespace Enforcer

variable {σ : Type} [PolicyStore σ]

/-! ## What holds in every state -/

/-- A new enforcer of a model that was read from a text. -/
def MadeOfText (e : Enforcer σ) : Prop :=
  ∃ text model store config, Model.ofText text = .ok model ∧ make model store config = .ok e

theorem MadeOfText.made {e : Enforcer σ} (h : e.MadeOfText) : e.Made := by
  obtain ⟨text, model, store, config, htext, hmake⟩ := h
  exact ⟨model, store, config, Model.built_ofText htext, hmake⟩

theorem MadeOfText.declared {e : Enforcer σ} (h : e.MadeOfText) : e.model.Declared := by
  obtain ⟨text, model, store, config, htext, hmake⟩ := h
  have hevolves := (sameSetup_load (make_ok hmake).2).model
  exact (Model.declared_ofText htext).of_bare hevolves.bare

theorem Reachable.declared {e : Enforcer σ}
    (h : Reachable MadeOfText (fun _ c => c.keepsDefinitions = true) e) : e.model.Declared := by
  refine h.model_induction (P := Model.Declared) (fun _ hmade => hmade.made)
    (fun e m k lines hmade _ _ hmodel => hmodel ▸ hmade.declared) fun m k _ hedits hm => ?_
  exact hm.of_bare hedits.evolves.bare

theorem Reachable.distinctRows {e : Enforcer σ}
    (h : Reachable Made (fun _ c => c.keepsDefinitions = true) e) : e.model.DistinctRows := by
  refine h.model_induction (P := Model.DistinctRows) (fun _ hmade => hmade)
    (fun e m k lines _ hbuilt hlines _ => ?_) fun m k hm hedits => hedits.evolves.distinct hm
  -- nothing is there twice before the lines come in
  have hcleared := hbuilt.wellFormed.clear
  have hadded := m.clear.evolves_addLines lines
  rw [hlines] at hadded
  have hdistinct := hadded.distinct hcleared m.distinctRows_clear
  exact (evolves_sorted k).distinct (hadded.wellFormed hcleared) hdistinct

/-! ## Saving and loading -/

theorem save_ok {e k : Enforcer σ} (h : e.save = (.ok (), k)) :
    ∃ store, PolicyStore.save e.store e.model.lines = (.ok (), store) ∧ k = { e with store } := by
  unfold save at h
  split at h
  · simp at h
  · split at h
    · next store hsave => exact ⟨store, hsave, (Prod.mk.inj h).2.symm⟩
    · simp at h

theorem read_of_lines {s : FileStore} {lines : List Line} (h : s.lines = .ok lines) :
    PolicyStore.read s = { lines } := by
  show s.readWhere (fun _ => true) = _
  unfold FileStore.readWhere
  rw [h]
  simp

/-- Where the lines of a model are loaded, with whatever rows it starts, the rows are those of the model. -/
theorem rows_of_saved {e f l : Enforcer FileStore} (hvalid : e.Valid) (hfiled : e.model.FiledByName)
    (hdistinct : e.model.DistinctRows) (hprior : e.model.Prioritized) (hinorder : e.model.InOrder)
    (horder : ordersBySubject e.model = false) (hclear : f.model.clear = e.model.clear)
    (hlines : f.store.lines = .ok e.model.lines) (hload : f.load = (.ok (), l)) (sec name : String) :
    l.model.rows sec name = e.model.rows sec name := by
  obtain ⟨m, hm, hmodel⟩ := model_finishLoad_ok hload
  rw [read_of_lines hlines, hclear] at hm
  have hrows := hinorder.rows_reloaded hvalid.model hfiled hdistinct hm
  have hbare := (Model.evolves_loaded hm).bare
  rw [hmodel, (hinorder.of_rows hbare hrows).sorted_eq (hprior.of_bare hbare)
    (hvalid.model.toNamed.of_bare hbare) ((Model.ordersBySubject_of_bare hbare).trans horder)]
  exact hrows sec name

/-- Lines whose fields have no blanks around them are the same without those. -/
theorem map_trim_lines {m : Model} (hm : m.Named) (hdeclared : m.Declared)
    (htrim : ∀ line ∈ m.lines, ∀ field ∈ line.tail, Text.trim field = field) :
    m.lines.map (·.map Text.trim) = m.lines := by
  refine (List.map_congr_left fun line hline => ?_).trans m.lines.map_id
  have hfields := htrim line hline
  obtain ⟨sec, hsec, name, d, hd, row, hrow, rfl⟩ := (hm.mem_lines line).1 hline
  have hname := Model.trim_of_isKeyOf hsec (hdeclared sec hsec name d hd).1
  rw [List.map_cons, hname]
  exact congrArg (name :: ·) ((List.map_congr_left hfields).trans row.map_id)

/-! ## Top theorem (proved from the lemmas above) -/

/-- **Saved rows come back.**  For every model that was read from a text and all rows that fit its
definitions: a file that it is saved to is read as its lines, in order, but for the blanks around fields.
And in every state that calls lead to from a new enforcer of such a model over a file, without taking
another model, and whatever the calls answer: if the default effect does not go by subjects and no field of
a row has blanks around it, a load that goes through after a save that went through gives every definition
the rows it had, in their order.  So does a load into another enforcer over that file, if their models differ
in rows only, whatever rows it has; and a new enforcer of a model with these definitions starts with them. -/
theorem saved_and_loaded :
    (∀ (text : String) (declared m : Model) (s : FileStore), Model.ofText text = .ok declared →
      m.bare = declared.bare →
      (∀ d ∈ m.definitions "p" ++ m.definitions "g", ∀ row ∈ d.rows, row.length = d.fields.length) →
      s.file.directoryExists = true →
      ∃ t : FileStore, PolicyStore.save s m.lines = (.ok (), t) ∧
        t.lines = .ok (m.lines.map (·.map Text.trim))) ∧
    ∀ e k : Enforcer FileStore, Reachable MadeOfText (fun _ c => c.keepsDefinitions = true) e →
      (∀ d, e.model.find? "e" "e" = some d → EffectKind.ofText d.value ≠ .ok .subjectPriority) →
      (∀ line ∈ e.model.lines, ∀ field ∈ line.tail, Text.trim field = field) → e.save = (.ok (), k) →
      (∀ l, k.load = (.ok (), l) → ∀ sec name, l.model.rows sec name = e.model.rows sec name) ∧
      (∀ f l : Enforcer FileStore, f.model.clear = e.model.clear → f.store = k.store →
        f.load = (.ok (), l) → ∀ sec name, l.model.rows sec name = e.model.rows sec name) ∧
      ∀ (model : Model) (config : EnforcerConfig) (f : Enforcer FileStore),
        model.clear = e.model.clear → make model k.store config = .ok f →
        ∀ sec name, f.model.rows sec name = e.model.rows sec name := by
  refine ⟨fun text declared m s htext hbare hfit hdir => ?_, fun e k h hdefault htrim hsave => ?_⟩
  · have hnamed := (Model.built_ofText htext).wellFormed.toNamed.of_bare hbare
    have hdeclared := (Model.declared_ofText htext).of_bare hbare
    have hsave : PolicyStore.save s m.lines = (.ok (), (s.write m.lines).2) :=
      Prod.ext ((s.write_ok_iff m.lines).2 hdir) rfl
    exact ⟨_, hsave, FileStore.lines_write (fun line => hdeclared.storable hnamed hfit) hsave⟩
  · have hvalid := h.valid fun _ hmade => hmade.made
    have hdeclared := h.declared
    have hmade := h.mono fun _ hmade => hmade.made
    have horder := Model.ordersBySubject_eq_false hdefault
    obtain ⟨hprior, hinorder⟩ := hmade.inOrder horder
    obtain ⟨store, hstore, rfl⟩ := save_ok hsave
    have hlines := FileStore.lines_write
      (fun line => hdeclared.storable hvalid.model.toNamed hvalid.model.rows_fit) hstore
    rw [map_trim_lines hvalid.model.toNamed hdeclared htrim] at hlines
    have hrows : ∀ f l : Enforcer FileStore, f.model.clear = e.model.clear → f.store = store →
        f.load = (.ok (), l) → ∀ sec name, l.model.rows sec name = e.model.rows sec name := by
      rintro f l hclear rfl hload
      exact rows_of_saved hvalid hdeclared.filed hmade.distinctRows hprior hinorder horder hclear hlines hload
    refine ⟨fun l hload => hrows { e with store } l rfl rfl hload, hrows, fun model config f hclear hmake => ?_⟩
    exact hrows _ f hclear rfl (make_ok hmake).2

set_option maxRecDepth 20000 in
/-- Fields with commas, quotes, ends of lines and number signs come back, and so does an empty one; a new
enforcer over the file has them too. -/
theorem saved_and_loaded_quoted : ∃ e k l f : Enforcer FileStore,
    Reachable MadeOfText (fun _ c => c.keepsDefinitions = true) e ∧
      e.model.rows "p" "p" = [["a,b", "say \"hi\"", "#"], ["", "one\r\ntwo", "x\ny"]] ∧
      e.save = (.ok (), k) ∧ k.store.lines = .ok e.model.lines ∧ k.load = (.ok (), l) ∧
      l.model.rows "p" "p" = e.model.rows "p" "p" ∧
      make rbacModel k.store { autoSave := false } = .ok f ∧
      f.model.rows "p" "p" = e.model.rows "p" "p" := by
  let rows : List Row := [["a,b", "say \"hi\"", "#"], ["", "one\r\ntwo", "x\ny"]]
  let store : FileStore := (({} : FileStore).write []).2
  let start : Enforcer FileStore :=
    { model := rbacModel, store, managers := [("g", {})], config := { autoSave := false } }
  let model := rbacModel.modify "p" "p" (·.insertAll rows)
  let e : Enforcer FileStore := { start with model }
  let k : Enforcer FileStore := { e with store := (store.write model.lines).2 }
  have hempty : store.lines = .ok [] := FileStore.lines_write (s := {}) (by simp) rfl
  have hstart : start.load = (.ok (), start) := by
    show start.finishLoad (PolicyStore.finishLoad store false (PolicyStore.read store) rbacModel.clear) = _
    rw [read_of_lines hempty]
    rfl
  have hmake : make rbacModel store { autoSave := false } = .ok start := make_of_load rfl hstart
  have h0 : Reachable MadeOfText (fun _ c => c.keepsDefinitions = true) start :=
    .start ⟨rbacText, rbacModel, store, _, ofText_rbacText, hmake⟩
  have hadd : (start.perform (.addRows "p" "p" rows)).2 = e :=
    perform_addRows (h0.valid fun _ h => h.made) (Or.inl rfl) rfl rfl (persist_unsaved rfl _)
      (by decide) rfl
  have h1 := h0.step (.addRows "p" "p" rows) rfl
  rw [hadd] at h1
  have htrim : ∀ line ∈ model.lines, ∀ field ∈ line.tail, Text.trim field = field := by decide
  have hlines : k.store.lines = .ok model.lines := by
    obtain ⟨t, ht, hread⟩ :=
      saved_and_loaded.1 rbacText rbacModel model store ofText_rbacText rfl (by decide) rfl
    have hsame : k.store = t := congrArg Prod.snd ht
    rw [hsame, hread]
    exact congrArg Except.ok (by decide)
  have hadded : rbacModel.addLines (rows.map ("p" :: ·)) = (.ok (), model) :=
    Model.addLines_rows (Or.inl rfl) rfl rfl (Definition.tidy_make "p" "p" "sub, obj, act")
      (by decide) (by decide) (by decide)
  have hread : PolicyStore.load k.store rbacModel = (.ok (), model, k.store) := by
    show PolicyStore.finishLoad k.store false (PolicyStore.read k.store) rbacModel = _
    rw [read_of_lines hlines, PolicyStore.finishLoad_ok hadded rfl]
    rfl
  have hload : k.load = (.ok (), k) := by
    show k.finishLoad (PolicyStore.load k.store rbacModel) = _
    rw [hread]
    rfl
  have hfresh : ({ start with store := k.store } : Enforcer FileStore).load = (.ok (), k) := by
    show ({ start with store := k.store } : Enforcer FileStore).finishLoad
      (PolicyStore.load k.store rbacModel) = _
    rw [hread]
    rfl
  have hnew : make rbacModel k.store { autoSave := false } = .ok k := make_of_load rfl hfresh
  have hdefault : ∀ d, e.model.find? "e" "e" = some d →
      EffectKind.ofText d.value ≠ .ok .subjectPriority := by
    intro d hd
    rw [← Option.some.inj hd]
    simp [show EffectKind.ofText "some(where (p.eft == allow))" = .ok .allowOverride from
      EffectKind.ofText_text .allowOverride, Definition.make]
  obtain ⟨hagain, -, hmade⟩ := saved_and_loaded.2 e k h1 hdefault htrim rfl
  exact ⟨e, k, k, k, h1, rfl, rfl, hlines, hload, hagain k hload "p" "p", hnew,
    hmade rbacModel _ k rfl hnew "p" "p"⟩

end Enforcer

end AccessControl
