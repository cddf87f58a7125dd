import AccessControl.Proofs.Enforcer.SameSetup
/-!
# Links that track rows

The manager of a role definition tracks its rows when it follows them.  Operations on rows that have at
most three fields keep it so, whatever fails on the way: what was linked is unlinked when the store
refuses, and what was unlinked is linked again.

    e.Tracks name settings d.rows → e.addRows "g" name rows = (result, k) → k tracks its rows
                                                                       (`tracked_addRows`)
-/

namespace AccessControl

namespace Enforcer

variable {σ : Type} {name : String} {settings : RoleManager}

/-- The manager of a name has some settings, is sound, and follows some rows. -/
def Tracks (e : Enforcer σ) (name : String) (settings : RoleManager) (rows : List Row) : Prop :=
  ∃ m, e.managers.find name = some m ∧ m.clear = settings ∧ m.Sound ∧ m.Follows rows

/-- The manager of a role definition follows its rows. -/
def Tracked (e : Enforcer σ) (name : String) (settings : RoleManager) : Prop :=
  ∃ d, e.model.find? "g" name = some d ∧ e.Tracks name settings d.rows

theorem Tracks.congr {e : Enforcer σ} {rows others : List Row} (h : e.Tracks name settings rows)
    (hmem : ∀ row, row ∈ rows ↔ row ∈ others) : e.Tracks name settings others := by
  obtain ⟨m, hm, hclear, hsound, hfollows⟩ := h
  exact ⟨m, hm, hclear, hsound, hfollows.congr hmem⟩

theorem Tracks.of_eq {e k : Enforcer σ} {rows : List Row} (h : e.Tracks name settings rows)
    (heq : k.managers = e.managers) : k.Tracks name settings rows := by
  unfold Tracks
  rw [heq]
  exact h

theorem Tracks.linked {e : Enforcer σ} {rows : List Row} (h : e.Tracks name settings rows) :
    ∀ row ∈ rows, ∃ l, linkOf? row = some l := by
  obtain ⟨m, -, -, -, hfollows⟩ := h
  exact hfollows.linked

theorem Tracks.rowsAcyclic {e : Enforcer σ} {rows : List Row} (h : e.Tracks name settings rows)
    (hr : settings.rejectCycles = true) : RowsAcyclic rows := by
  obtain ⟨m, -, rfl, hsound, hfollows⟩ := h
  exact hfollows.rowsAcyclic hsound hr

/-! ## Links of one definition -/

theorem followRows_eq {e : Enforcer σ} (hauto : e.config.autoLinks = true) {m : RoleManager}
    (hm : e.managers.find name = some m) (change : LinkChange) (rows : List Row) :
    e.followRows "g" name change rows = ((m.applyBatch change rows).1,
      { e with managers := e.managers.put name (m.applyBatch change rows).2 }) := by
  simp [followRows, linkRows, hauto, hm]

theorem autoLinks_followRows {e k : Enforcer σ} (hauto : e.config.autoLinks = true)
    {change : LinkChange} {rows : List Row} {result : Except Error Unit}
    (h : e.followRows "g" name change rows = (result, k)) : k.config.autoLinks = true := by
  obtain ⟨_, rfl⟩ := relinked_followRows h
  exact hauto

/-- What a batch does to the rows that are tracked, when it is known what it does to those followed. -/
theorem Tracks.batch {e k : Enforcer σ} {rows others : List Row} (h : e.Tracks name settings rows)
    (hauto : e.config.autoLinks = true) {change : LinkChange} {batch : List Row}
    {result : Except Error Unit} (hrun : e.followRows "g" name change batch = (result, k))
    (hfollows : ∀ m l : RoleManager, m.Sound → m.Follows rows →
      m.applyBatch change batch = (result, l) → l.Follows others) : k.Tracks name settings others := by
  obtain ⟨m, hm, hclear, hsound, hrows⟩ := h
  rw [followRows_eq hauto hm] at hrun
  rcases hb : m.applyBatch change batch with ⟨r, l⟩
  rw [hb] at hrun
  obtain ⟨rfl, rfl⟩ := Prod.mk.inj hrun
  exact ⟨l, Table.find_put_self _ _ _, (RoleManager.clear_applyBatch hb).trans hclear,
    hsound.applyBatch hb, hfollows m l hsound hrows hb⟩

theorem Tracks.add {e k : Enforcer σ} {rows new : List Row} (h : e.Tracks name settings rows)
    (hauto : e.config.autoLinks = true) (hrun : e.followRows "g" name .add new = (.ok (), k)) :
    k.Tracks name settings (rows ++ new) :=
  h.batch hauto hrun fun _ _ hsound hrows hb =>
    hrows.add hsound (RoleManager.applyBatch_ok_iff.1 hb)

theorem Tracks.add_error {e k : Enforcer σ} {rows new : List Row} (h : e.Tracks name settings rows)
    (hauto : e.config.autoLinks = true) {n : Nat} (hn : n ≤ 3) (hlen : ∀ row ∈ rows, row.length = n)
    (hlen' : ∀ row ∈ new, row.length = n) (hdisj : ∀ row ∈ new, row ∉ rows) {err : Error}
    (hrun : e.followRows "g" name .add new = (.error err, k)) : k.Tracks name settings rows :=
  h.batch hauto hrun fun _ _ hsound hrows hb => hrows.add_error hsound hn hlen hlen' hdisj hb

/-- Tracked rows can be dropped. -/
theorem Tracks.remove {e k : Enforcer σ} {rows old : List Row} (h : e.Tracks name settings rows)
    (hauto : e.config.autoLinks = true) {n : Nat} (hn : n ≤ 3) (hlen : ∀ row ∈ rows, row.length = n)
    (hold : ∀ row ∈ old, row ∈ rows) {result : Except Error Unit}
    (hrun : e.followRows "g" name .remove old = (result, k)) :
    result = .ok () ∧ k.Tracks name settings (rows.filter fun row => !old.contains row) := by
  obtain ⟨m, hm, -, hsound, hrows⟩ := id h
  obtain ⟨l, hl, -⟩ := hrows.remove hsound hn hlen hold
  have hok : result = .ok () := by
    rw [followRows_eq hauto hm, RoleManager.applyBatch_ok_iff.2 hl] at hrun
    exact (Prod.mk.inj hrun).1.symm
  subst hok
  refine ⟨rfl, h.batch hauto hrun fun m l hsound hrows hb => ?_⟩
  obtain ⟨l', hl', hfollows⟩ := hrows.remove hsound hn hlen hold
  rw [RoleManager.applyBatch_ok_iff.1 hb] at hl'
  rwa [(Prod.mk.inj hl').2]

/-- Rows that close no cycle can be added. -/
theorem Tracks.add_ok {e k : Enforcer σ} {rows new : List Row} (h : e.Tracks name settings rows)
    (hauto : e.config.autoLinks = true) (hlinked : ∀ row ∈ new, ∃ l, linkOf? row = some l)
    (ha : settings.rejectCycles = true → RowsAcyclic (rows ++ new)) {result : Except Error Unit}
    (hrun : e.followRows "g" name .add new = (result, k)) :
    result = .ok () ∧ k.Tracks name settings (rows ++ new) := by
  obtain ⟨m, hm, rfl, hsound, hrows⟩ := id h
  obtain ⟨l, hl, -⟩ := hrows.add_ok hsound hlinked ha
  have hok : result = .ok () := by
    rw [followRows_eq hauto hm, RoleManager.applyBatch_ok_iff.2 hl] at hrun
    exact (Prod.mk.inj hrun).1.symm
  subst hok
  exact ⟨rfl, h.add hauto hrun⟩

/-! ## Lists of rows -/

theorem filter_append_new {rows new : List Row} (hdisj : ∀ row ∈ new, row ∉ rows) (row : Row) :
    (row ∈ (rows ++ new).filter fun r => !new.contains r) ↔ row ∈ rows := by
  simp only [List.mem_filter, List.mem_append, Bool.not_eq_true', ← Bool.not_eq_true,
    List.contains_iff_mem]
  constructor
  · rintro ⟨hr | hr, hnot⟩
    · exact hr
    · exact absurd hr hnot
  · intro hr
    exact ⟨Or.inl hr, fun hmem => hdisj row hmem hr⟩

theorem mem_filter_old {rows : List Row} (old row : Row) :
    (row ∈ rows.filter fun r => !List.contains [old] r) ↔ row ∈ rows ∧ row ≠ old := by
  simp [List.mem_filter]

/-! ## One row for another -/

/-- An old row that was dropped can be added again. -/
theorem Tracks.readd {e l k : Enforcer σ} {rows : List Row} (h : e.Tracks name settings rows)
    {old : Row} (hold : old ∈ rows) (hauto : l.config.autoLinks = true)
    (hl : l.Tracks name settings (rows.filter fun r => !List.contains [old] r))
    {result : Except Error Unit} (hrun : l.followRows "g" name .add [old] = (result, k)) :
    result = .ok () ∧ k.Tracks name settings rows := by
  have hmem : ∀ row, row ∈ (rows.filter fun r => !List.contains [old] r) ++ [old] ↔ row ∈ rows := by
    intro row
    rw [List.mem_append, mem_filter_old, List.mem_singleton]
    constructor
    · rintro (⟨hr, -⟩ | rfl)
      · exact hr
      · exact hold
    · intro hr
      by_cases heq : row = old
      · exact Or.inr heq
      · exact Or.inl ⟨hr, heq⟩
  obtain ⟨hok, hk⟩ := hl.add_ok hauto (List.forall_mem_singleton.2 (h.linked old hold))
    (fun hr => (h.rowsAcyclic hr).mono fun row hrow => (hmem row).1 hrow) hrun
  exact ⟨hok, hk.congr hmem⟩

theorem Tracks.relink {e k : Enforcer σ} {rows : List Row} (h : e.Tracks name settings rows)
    (hauto : e.config.autoLinks = true) {n : Nat} (hn : n ≤ 3) (hlen : ∀ row ∈ rows, row.length = n)
    {old new : Row} (hold : old ∈ rows) (hlen' : new.length = n) (hnew : new ≠ old → new ∉ rows)
    {result : Except Error Unit} (hrun : e.relinkRow "g" name old new = (result, k)) :
    (result = .ok () ∧
      k.Tracks name settings ((rows.filter fun r => !List.contains [old] r) ++ [new])) ∨
    ((∃ err, result = .error err) ∧ k.Tracks name settings rows) := by
  unfold relinkRow at hrun
  split at hrun
  · next hremove =>
    obtain ⟨hok, -⟩ := h.remove hauto hn hlen (List.forall_mem_singleton.2 hold) hremove
    simp at hok
  · next l hremove =>
    obtain ⟨-, hl⟩ := h.remove hauto hn hlen (List.forall_mem_singleton.2 hold) hremove
    have hautoL := autoLinks_followRows hauto hremove
    split at hrun
    · next hadd =>
      obtain ⟨rfl, rfl⟩ := Prod.mk.inj hrun
      exact Or.inl ⟨rfl, hl.add hautoL hadd⟩
    · next err x hadd =>
      -- a failed batch leaves no trace, so the old row can be added again
      have hdisj : ∀ row ∈ [new], row ∉ rows.filter fun r => !List.contains [old] r := by
        rw [List.forall_mem_singleton, mem_filter_old]
        rintro ⟨hmem, hne⟩
        exact hnew hne hmem
      have hx := hl.add_error hautoL hn (fun row hrow => hlen row (List.mem_of_mem_filter hrow))
        (List.forall_mem_singleton.2 hlen') hdisj hadd
      have hautoX := autoLinks_followRows hautoL hadd
      split at hrun <;> next hback =>
        obtain ⟨-, hk⟩ := h.readd hold hautoX hx hback
        obtain ⟨rfl, rfl⟩ := Prod.mk.inj hrun
        exact Or.inr ⟨⟨_, rfl⟩, hk⟩

theorem Tracks.unlink {e l k : Enforcer σ} {rows : List Row} (h : e.Tracks name settings rows)
    {n : Nat} (hn : n ≤ 3) (hlen : ∀ row ∈ rows, row.length = n) {old new : Row} (hold : old ∈ rows)
    (hlen' : new.length = n) (hnew : new ≠ old → new ∉ rows) (hauto : l.config.autoLinks = true)
    (hl : l.Tracks name settings ((rows.filter fun r => !List.contains [old] r) ++ [new]))
    {result : Except Error Unit} (hrun : l.unlinkRow "g" name old new = (result, k)) :
    k.Tracks name settings rows := by
  have hlens : ∀ row ∈ (rows.filter fun r => !List.contains [old] r) ++ [new], row.length = n := by
    intro row hrow
    rcases List.mem_append.1 hrow with hr | hr
    · exact hlen row (List.mem_of_mem_filter hr)
    · rwa [List.mem_singleton.1 hr]
  have hdisj : ∀ row ∈ [new], row ∉ rows.filter fun r => !List.contains [old] r := by
    rw [List.forall_mem_singleton, mem_filter_old]
    rintro ⟨hmem, hne⟩
    exact hnew hne hmem
  have hnewMem : ∀ row ∈ [new], row ∈ (rows.filter fun r => !List.contains [old] r) ++ [new] :=
    fun row hrow => List.mem_append_right _ hrow
  unfold unlinkRow at hrun
  split at hrun
  · next hremove =>
    obtain ⟨hok, -⟩ := hl.remove hauto hn hlens hnewMem hremove
    simp at hok
  · next x hremove =>
    obtain ⟨-, hx⟩ := hl.remove hauto hn hlens hnewMem hremove
    exact (h.readd hold (autoLinks_followRows hauto hremove) (hx.congr (filter_append_new hdisj))
      hrun).2

/-! ## Operations on rows -/

theorem find?_setRows (e : Enforcer σ) (m : Model) (changed : Bool) (name : String) :
    (e.setRows m changed).model.find? "g" name = m.find? "g" name := by
  unfold setRows
  split
  · exact m.find?_sortBySubject_of_ne (by decide) name
  · rfl

/-- Tracked rows that are put in a definition that changed. -/
theorem tracked_setRows {e : Enforcer σ} {m : Model} {f : Definition → Definition} {d : Definition}
    (hd : m.find? "g" name = some d) (h : e.Tracks name settings (f d).rows) (changed : Bool) :
    (e.setRows (m.modify "g" name f) changed).Tracked name settings := by
  refine ⟨f d, ?_, h.of_eq rfl⟩
  rw [find?_setRows, Model.find?_modify_self hd]

variable [PolicyStore σ]

theorem tracked_addRows {e k : Enforcer σ} {d : Definition} (hd : e.model.find? "g" name = some d)
    (htidy : d.Tidy) (hnarrow : d.fields.length ≤ 3) (hauto : e.config.autoLinks = true)
    (h : e.Tracks name settings d.rows) {rows : List Row} {result : Except Error Bool}
    (hrun : e.addRows "g" name rows = (result, k)) : k.Tracked name settings := by
  have hsame : ∀ {l : Enforcer σ}, l.model = e.model → l.Tracks name settings d.rows →
      l.Tracked name settings := fun hl htracks => ⟨d, hl ▸ hd, htracks⟩
  have hdisj : d.Fresh rows → ∀ row ∈ rows, row ∉ d.rows := fun hfresh row hrow =>
    (htidy.contains_eq_false_iff row).1 (hfresh.new row hrow)
  cases adds_of_addRows hrun with
  | refused => exact hsame rfl h
  | unlinked hx hfresh hlink =>
    obtain rfl := Option.some.inj (hd.symm.trans hx)
    exact hsame (model_followRows hlink)
      (h.add_error hauto hnarrow htidy.arity hfresh.arity (hdisj hfresh) hlink)
  | @unstored _ l _ _ _ _ _ hx hfresh hlink hstore hundo =>
    obtain rfl := Option.some.inj (hd.symm.trans hx)
    obtain ⟨store, rfl⟩ := persist_eq hstore
    have hl : ({ l with store } : Enforcer σ).Tracks name settings (d.rows ++ rows) :=
      (h.add hauto hlink).of_eq rfl
    have hlen : ∀ row ∈ d.rows ++ rows, row.length = d.fields.length := by
      intro row hrow
      rcases List.mem_append.1 hrow with hr | hr
      · exact htidy.arity row hr
      · exact hfresh.arity row hr
    -- the store refused: the links that were just added are dropped again
    have hmodel : l.model = e.model := model_followRows hlink
    have hautoL : l.config.autoLinks = true := autoLinks_followRows hauto hlink
    have hback := hl.remove hautoL hnarrow hlen
      (fun row hrow => List.mem_append_right _ hrow) hundo
    exact hsame ((model_followRows hundo).trans hmodel)
      (hback.2.congr (filter_append_new (hdisj hfresh)))
  | misfiled hsec => simp at hsec
  | added hadded =>
    obtain ⟨-, hx, hfresh, hlink, hstore, rfl⟩ := hadded
    obtain rfl := Option.some.inj (hd.symm.trans hx)
    obtain ⟨store, rfl⟩ := persist_eq hstore
    refine tracked_setRows hd (Tracks.congr ((h.add hauto hlink).of_eq rfl) fun row => ?_) true
    rw [(d.rows_insertAll rows).mem_iff, List.mem_append, List.mem_append, or_comm]

theorem tracked_removeRows {e k : Enforcer σ} {d : Definition} (hd : e.model.find? "g" name = some d)
    (htidy : d.Tidy) (hnarrow : d.fields.length ≤ 3) (hauto : e.config.autoLinks = true)
    (h : e.Tracks name settings d.rows) {rows : List Row} {result : Except Error Bool}
    (hrun : e.removeRows "g" name rows = (result, k)) : k.Tracked name settings := by
  -- links of stored rows can always be dropped
  have hremove : ∀ {s l : Enforcer σ} {r s' : Except Error Unit},
      e.persist (unstoreRows "g" name rows) = (s', s) → (∀ row ∈ rows, d.contains row = true) →
        s.followRows "g" name .remove rows = (r, l) →
          r = .ok () ∧ l.Tracks name settings (d.eraseAll rows).rows := by
    intro s l r s' hstore hold hunlink
    obtain ⟨store, rfl⟩ := persist_eq hstore
    have hs : ({ e with store } : Enforcer σ).Tracks name settings d.rows := h.of_eq rfl
    rw [htidy.rows_eraseAll]
    exact hs.remove hauto hnarrow htidy.arity (fun row hrow => (htidy.contains_iff row).1 (hold row hrow))
      hunlink
  cases removes_of_removeRows hrun with
  | refused => exact ⟨d, hd, h⟩
  | unstored hstore =>
    obtain ⟨store, rfl⟩ := persist_eq hstore
    exact ⟨d, hd, h.of_eq rfl⟩
  | linked hx hold hstore hunlink =>
    obtain rfl := Option.some.inj (hd.symm.trans hx)
    exact absurd (hremove hstore hold hunlink).1 (by simp)
  | misfiled hsec => simp at hsec
  | removed hremoved =>
    obtain ⟨-, hx, hold, hstore, hunlink, rfl⟩ := hremoved
    obtain rfl := Option.some.inj (hd.symm.trans hx)
    exact tracked_setRows hd (hremove hstore hold hunlink).2 true

theorem tracked_removeFiltered {e k : Enforcer σ} {d : Definition}
    (hd : e.model.find? "g" name = some d) (htidy : d.Tidy) (hnarrow : d.fields.length ≤ 3)
    (hauto : e.config.autoLinks = true) (h : e.Tracks name settings d.rows) {index : Nat}
    {values : List String} {result : Except Error Bool}
    (hrun : e.removeFiltered "g" name index values = (result, k)) : k.Tracked name settings := by
  -- the links of the rows that are dropped can be dropped
  have hunlinked : ∀ {s l : Enforcer σ} {m : Model} {removed : List Row} {r s' : Except Error Unit},
      e.persist (fun s => PolicyStore.removeFiltered s "g" name index values) = (s', s) →
        e.model.removeFiltered "g" name index values = .ok (m, removed) →
          ({ s with model := m } : Enforcer σ).followRows "g" name .remove removed = (r, l) →
            r = .ok () ∧ l.Tracks name settings (d.rows.filter fun row => !removed.contains row) := by
    intro s l m removed r s' hstore hremove hunlink
    obtain ⟨store, rfl⟩ := persist_eq hstore
    have hs : ({ e with model := m, store } : Enforcer σ).Tracks name settings d.rows := h.of_eq rfl
    exact hs.remove hauto hnarrow htidy.arity (Model.mem_of_removeFiltered hremove hd) hunlink
  cases removesFiltered_of_removeFiltered hrun with
  | refused => exact ⟨d, hd, h⟩
  | unstored hstore =>
    obtain ⟨store, rfl⟩ := persist_eq hstore
    exact ⟨d, hd, h.of_eq rfl⟩
  | misfiled hsec => simp at hsec
  | none _ hstore hremove =>
    obtain ⟨store, rfl⟩ := persist_eq hstore
    obtain ⟨x, hx, hrows⟩ := Model.find?_removeFiltered hremove hd
    exact ⟨x, hx, Tracks.congr (h.of_eq rfl) fun row => by simp [hrows]⟩
  | linked _ hstore hremove hunlink => exact absurd (hunlinked hstore hremove hunlink).1 (by simp)
  | removed _ hstore hremove hunlink =>
    obtain ⟨x, hx, hrows⟩ := Model.find?_removeFiltered hremove hd
    refine ⟨x, ?_, Tracks.congr ((hunlinked hstore hremove hunlink).2.of_eq rfl) fun row => ?_⟩
    · rw [find?_setRows]
      exact hx
    · rw [hrows]

theorem tracked_updateRow {e k : Enforcer σ} {d : Definition} (hd : e.model.find? "g" name = some d)
    (htidy : d.Tidy) (hnarrow : d.fields.length ≤ 3) (hauto : e.config.autoLinks = true)
    (h : e.Tracks name settings d.rows) {old new : Row} {result : Except Error Bool}
    (hdistinct : result = .ok true → d.rows.Nodup)
    (hrun : e.updateRow "g" name old new = (result, k)) : k.Tracked name settings := by
  have hnew : d.Replaces old new → new ≠ old → new ∉ d.rows := fun hrow hne =>
    (htidy.contains_eq_false_iff new).1 (hrow.free hne)
  have hold : d.Replaces old new → old ∈ d.rows := fun hrow => (htidy.contains_iff old).1 hrow.there
  cases updates_of_updateRow hrun with
  | refused => exact ⟨d, hd, h⟩
  | unlinked hx hrow hlink =>
    obtain rfl := Option.some.inj (hd.symm.trans hx)
    rcases h.relink hauto hnarrow htidy.arity (hold hrow) hrow.arity (hnew hrow) hlink with
      ⟨hok, -⟩ | ⟨-, hl⟩
    · simp at hok
    · obtain ⟨_, rfl⟩ := relinked_relinkRow hlink
      exact ⟨d, hd, hl⟩
  | unstored hx hrow hlink hstore hundo =>
    obtain rfl := Option.some.inj (hd.symm.trans hx)
    rcases h.relink hauto hnarrow htidy.arity (hold hrow) hrow.arity (hnew hrow) hlink with
      ⟨-, hl⟩ | ⟨⟨_, herr⟩, -⟩
    · obtain ⟨managers, rfl⟩ := relinked_relinkRow hlink
      obtain ⟨store, rfl⟩ := persist_eq hstore
      have hs : ({ e with managers, store } : Enforcer σ).config.autoLinks = true := hauto
      -- the store refused: the new link goes and the old one comes back
      have hk := h.unlink hnarrow htidy.arity (hold hrow) hrow.arity (hnew hrow) hs (hl.of_eq rfl) hundo
      obtain ⟨_, rfl⟩ := relinked_unlinkRow hundo
      exact ⟨d, hd, hk⟩
    · simp at herr
  | misfiled hsec => simp at hsec
  | updated _ hx hrow hlink hstore =>
    obtain rfl := Option.some.inj (hd.symm.trans hx)
    have hthere : d.rows.contains old = true := List.contains_iff_mem.2 (hold hrow)
    rcases h.relink hauto hnarrow htidy.arity (hold hrow) hrow.arity (hnew hrow) hlink with
      ⟨-, hl⟩ | ⟨⟨_, herr⟩, -⟩
    · obtain ⟨managers, rfl⟩ := relinked_relinkRow hlink
      obtain ⟨store, rfl⟩ := persist_eq hstore
      refine tracked_setRows hd (Tracks.congr (hl.of_eq rfl) fun row => ?_) _
      rw [(Definition.rows_replace (hold hrow) new).mem_iff, List.mem_append, mem_filter_old,
        List.mem_singleton, List.mem_cons, (hdistinct (congrArg Except.ok hthere)).mem_erase_iff]
      tauto
    · simp at herr

end Enforcer

end AccessControl
