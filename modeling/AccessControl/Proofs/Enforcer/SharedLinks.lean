import AccessControl.Proofs.Enforcer.ConsistentRuns
/-!
# Links that rows share

The link of a row is made of its first three fields, so rows with more fields can share one.  A manager holds
a link once, however many rows have it: it goes when the first of them is dropped or replaced, and also when
the addition of another one fails and is taken back.  A link that no such call touches while other rows have
it is held exactly as long as a stored row has it, whatever happens to the links of other rows.

    a batch of new links that fails drops those it had added, held before or not
                                                                       (`Sound.link_applyBatch_error`)
    one row is put for another, or a link stays as it was              (`Manages.relink`)
    e.InStepAt name key a b → c.SparesLink e name key a b → (e.perform c).2.InStepAt name key a b
                                                                       (`InStepAt.perform`)
    the link is held ↔ a stored row has it                             (`link_iff_spared`)
-/

namespace AccessControl

@[simp] theorem rowsLink_singleton (row : Row) (key name role : String) :
    RowsLink [row] key name role ↔ linkOf? row = some (key, name, role) := by
  simp [RowsLink]

/-- Rows keep the link of those that were dropped only if another row has it. -/
theorem rowsLink_filter {rows gone : List Row} {key a b : String}
    (h : RowsLink gone key a b → ¬ RowsLink (rows.filter fun row => !gone.contains row) key a b) :
    RowsLink (rows.filter fun row => !gone.contains row) key a b ↔
      RowsLink rows key a b ∧ ¬ RowsLink gone key a b := by
  constructor
  · intro hkept
    exact ⟨hkept.mono fun row hrow => List.mem_of_mem_filter hrow, fun hgone => h hgone hkept⟩
  · rintro ⟨⟨row, hrow, hl⟩, hgone⟩
    refine ⟨row, List.mem_filter.2 ⟨hrow, ?_⟩, hl⟩
    rw [Bool.not_eq_true', ← Bool.not_eq_true, List.contains_iff_mem]
    exact fun hmem => hgone ⟨row, hmem, hl⟩

/-- Rows in another order, the first one apart. -/
theorem rowsLink_of_perm_cons {rows rest : List Row} {row : Row} (h : rows.Perm (row :: rest))
    (key a b : String) :
    RowsLink rows key a b ↔ linkOf? row = some (key, a, b) ∨ RowsLink rest key a b := by
  simp [RowsLink, h.mem_iff]

/-- A batch of new links that fails takes back those that it had added, also where they were held before. -/
theorem RoleManager.Sound.link_applyBatch_error {m k : RoleManager} (hm : m.Sound) {rows : List Row}
    {err : Error} (h : m.applyBatch .add rows = (.error err, k)) : ∃ front row rest,
      rows = front ++ row :: rest ∧
        ∀ key a b, k.Link key a b ↔ m.Link key a b ∧ ¬ RowsLink front key a b := by
  rcases m.applyBatch_cases .add rows with
    ⟨l, -, hok⟩ | ⟨front, row, rest, mid, fault, rfl, hfront, -, hb⟩
  · rw [hok] at h
    simp at h
  · have hmid := hm.applyRows hfront
    obtain ⟨l, hl⟩ := mid.applyRows_remove (hm.linkOf?_of_applyRows hfront)
    rw [hb, LinkChange.inverse, hl] at h
    obtain ⟨-, rfl⟩ := Prod.mk.inj h
    refine ⟨front, row, rest, rfl, fun key a b => ?_⟩
    rw [hmid.link_applyRows hl, LinkChange.On, hm.link_applyRows hfront, LinkChange.On]
    tauto

namespace Enforcer

variable {σ : Type} {name key a b : String}

/-! ## The manager of one definition -/

/-- Links are built automatically, and a sound manager holds those of a name. -/
structure Manages (e : Enforcer σ) (name : String) (m : RoleManager) : Prop where
  auto : e.config.autoLinks = true
  found : e.managers.find name = some m
  sound : m.Sound

theorem Manages.of_eq {e k : Enforcer σ} {m : RoleManager} (h : e.Manages name m)
    (hconfig : k.config = e.config) (hmanagers : k.managers.find name = e.managers.find name) :
    k.Manages name m :=
  ⟨hconfig ▸ h.auto, hmanagers.trans h.found, h.sound⟩

theorem Manages.persist {α : Type} {e k : Enforcer σ} {m : RoleManager} (h : e.Manages name m)
    {change : σ → Except StoreError α × σ} {result : Except Error Unit}
    (hrun : e.persist change = (result, k)) : k.Manages name m := by
  obtain ⟨store, rfl⟩ := persist_eq hrun
  exact h.of_eq rfl rfl

section

variable {e k : Enforcer σ} {m : RoleManager} (h : e.Manages name m)

include h

theorem Manages.follow {change : LinkChange} {rows : List Row} {result : Except Error Unit}
    (hrun : e.followRows "g" name change rows = (result, k)) :
    ∃ l, k.Manages name l ∧ l.clear = m.clear ∧ m.applyBatch change rows = (result, l) := by
  rcases hb : m.applyBatch change rows with ⟨r, l⟩
  rw [followRows_eq h.auto h.found, hb] at hrun
  obtain ⟨rfl, rfl⟩ := Prod.mk.inj hrun
  exact ⟨l, ⟨h.auto, Table.find_put_self _ _ _, h.sound.applyBatch hb⟩,
    RoleManager.clear_applyBatch hb, rfl⟩

theorem Manages.add {rows : List Row} (hrun : e.followRows "g" name .add rows = (.ok (), k)) :
    (∀ row ∈ rows, ∃ l, linkOf? row = some l) ∧ ∃ l, k.Manages name l ∧ l.clear = m.clear ∧
      ∀ key a b, l.Link key a b ↔ m.Link key a b ∨ RowsLink rows key a b := by
  obtain ⟨l, hl, hclear, hb⟩ := h.follow hrun
  rw [RoleManager.applyBatch_ok_iff] at hb
  exact ⟨h.sound.linkOf?_of_applyRows hb, l, hl, hclear, h.sound.link_applyRows hb⟩

theorem Manages.add_error {rows : List Row} {err : Error}
    (hrun : e.followRows "g" name .add rows = (.error err, k)) : ∃ front row rest l,
      rows = front ++ row :: rest ∧ k.Manages name l ∧ l.clear = m.clear ∧
        ∀ key a b, l.Link key a b ↔ m.Link key a b ∧ ¬ RowsLink front key a b := by
  obtain ⟨l, hl, hclear, hb⟩ := h.follow hrun
  obtain ⟨front, row, rest, hrows, hlinks⟩ := h.sound.link_applyBatch_error hb
  exact ⟨front, row, rest, l, hrows, hl, hclear, hlinks⟩

theorem Manages.remove {rows : List Row} (hrows : ∀ row ∈ rows, ∃ l, linkOf? row = some l)
    {result : Except Error Unit} (hrun : e.followRows "g" name .remove rows = (result, k)) :
    result = .ok () ∧ ∃ l, k.Manages name l ∧ l.clear = m.clear ∧
      ∀ key a b, l.Link key a b ↔ m.Link key a b ∧ ¬ RowsLink rows key a b := by
  obtain ⟨l, hl, hclear, hb⟩ := h.follow hrun
  obtain ⟨x, hx⟩ := m.applyRows_remove hrows
  rw [RoleManager.applyBatch_ok_iff.2 hx] at hb
  obtain ⟨rfl, rfl⟩ := Prod.mk.inj hb
  exact ⟨rfl, x, hl, hclear, h.sound.link_applyRows hx⟩

/-- A single row that is refused changes no link. -/
theorem Manages.add_error_single {row : Row} {err : Error}
    (hrun : e.followRows "g" name .add [row] = (.error err, k)) : ∃ l, k.Manages name l ∧
      l.clear = m.clear ∧ ∀ key a b, l.Link key a b ↔ m.Link key a b := by
  obtain ⟨front, r, rest, l, hrows, hl, hclear, hlinks⟩ := h.add_error hrun
  have hfront : front = [] := by
    have hlength := congrArg List.length hrows
    simp only [List.length_append, List.length_cons, List.length_nil] at hlength
    exact List.eq_nil_of_length_eq_zero (by omega)
  subst hfront
  refine ⟨l, hl, hclear, fun key a b => ?_⟩
  rw [hlinks, and_iff_left (rowsLink_nil key a b)]

/-- A row whose link was held before can be put back where no other links have come up since; a link of
another row stays as it is. -/
theorem Manages.putBack {before : RoleManager} (hbefore : before.Sound) (hclear : m.clear = before.clear)
    (hsub : ∀ key a b, m.Link key a b → before.Link key a b) {row : Row}
    (hmine : linkOf? row = some (key, a, b) → before.Link key a b)
    (hother : linkOf? row ≠ some (key, a, b) → (m.Link key a b ↔ before.Link key a b))
    {result : Except Error Unit} (hrun : e.followRows "g" name .add [row] = (result, k)) :
    ∃ l, k.Manages name l ∧ (l.Link key a b ↔ before.Link key a b) := by
  by_cases hrow : linkOf? row = some (key, a, b)
  · have hheld := hmine hrow
    obtain ⟨l, hl, -, hb⟩ := h.follow hrun
    obtain ⟨x, hx⟩ := h.sound.applyRow_add hrow hsub hheld fun hon =>
      hbefore.acyclic ((RoleManager.rejectCycles_eq hclear).symm.trans hon)
    have hrows : m.applyRows .add [row] = (.ok (), x) := by
      rw [RoleManager.applyRows_cons, hx]
      rfl
    rw [RoleManager.applyBatch_ok_iff.2 hrows] at hb
    obtain ⟨-, rfl⟩ := Prod.mk.inj hb
    have hlink : x.Link key a b :=
      (h.sound.link_applyRows hrows key a b).2 (Or.inr ((rowsLink_singleton ..).2 hrow))
    exact ⟨x, hl, iff_of_true hlink hheld⟩
  · rw [← hother hrow]
    match result, hrun with
    | .ok (), hrun =>
      obtain ⟨-, l, hl, -, hlinks⟩ := h.add hrun
      refine ⟨l, hl, ?_⟩
      rw [hlinks, rowsLink_singleton, or_iff_left hrow]
    | .error err, hrun =>
      obtain ⟨l, hl, -, hlinks⟩ := h.add_error_single hrun
      exact ⟨l, hl, hlinks key a b⟩

/-! ## One row for another -/

variable {old new : Row}

/-- An update of links puts that of the new row for that of the old one, or leaves a link as it was. -/
theorem Manages.relink (hlinked : ∃ l, linkOf? old = some l)
    (hheld : linkOf? old = some (key, a, b) → m.Link key a b) {result : Except Error Unit}
    (hrun : e.relinkRow "g" name old new = (result, k)) :
    (result = .ok () ∧ (∃ l, linkOf? new = some l) ∧ ∃ l, k.Manages name l ∧ l.clear = m.clear ∧
      ∀ key a b, l.Link key a b ↔
        (m.Link key a b ∧ linkOf? old ≠ some (key, a, b)) ∨ linkOf? new = some (key, a, b)) ∨
    ((∃ err, result = .error err) ∧ ∃ l, k.Manages name l ∧ (l.Link key a b ↔ m.Link key a b)) := by
  have hremovable : ∀ row ∈ [old], ∃ l, linkOf? row = some l := List.forall_mem_singleton.2 hlinked
  unfold relinkRow at hrun
  split at hrun
  · next hremove =>
    obtain ⟨hok, -⟩ := h.remove hremovable hremove
    simp at hok
  · next hremove =>
    obtain ⟨-, x, hx, hclear, hgone⟩ := h.remove hremovable hremove
    simp only [rowsLink_singleton] at hgone
    split at hrun
    · next hadd =>
      obtain ⟨rfl, rfl⟩ := Prod.mk.inj hrun
      obtain ⟨hnew, l, hl, hclear', hlinks⟩ := hx.add hadd
      refine Or.inl ⟨rfl, hnew new (List.mem_singleton_self new), l, hl, hclear'.trans hclear, ?_⟩
      intro key a b
      rw [hlinks, hgone, rowsLink_singleton]
    · next hadd =>
      obtain ⟨y, hy, hclear', hsame⟩ := hx.add_error_single hadd
      have hlinks : ∀ key a b, y.Link key a b ↔ m.Link key a b ∧ ¬ linkOf? old = some (key, a, b) :=
        fun key a b => (hsame key a b).trans (hgone key a b)
      split at hrun <;> next hback =>
        obtain ⟨rfl, rfl⟩ := Prod.mk.inj hrun
        refine Or.inr ⟨⟨_, rfl⟩, hy.putBack h.sound (hclear'.trans hclear) ?_ hheld ?_ hback⟩
        · exact fun key a b hl => ((hlinks key a b).1 hl).1
        · exact fun hother => (hlinks key a b).trans (and_iff_left hother)

/-- An update of links that is taken back leaves a link as it was before, unless that link was held and is
that of the new row only. -/
theorem Manages.unlink {before : RoleManager} (hbefore : before.Sound) (hclear : m.clear = before.clear)
    (hlinks : ∀ key a b, m.Link key a b ↔
      (before.Link key a b ∧ linkOf? old ≠ some (key, a, b)) ∨ linkOf? new = some (key, a, b))
    (hlinked : ∃ l, linkOf? new = some l)
    (hheld : linkOf? old = some (key, a, b) → before.Link key a b)
    (hspare : linkOf? new = some (key, a, b) → linkOf? old ≠ some (key, a, b) → ¬ before.Link key a b)
    {result : Except Error Unit} (hrun : e.unlinkRow "g" name old new = (result, k)) :
    ∃ l, k.Manages name l ∧ (l.Link key a b ↔ before.Link key a b) := by
  have hremovable : ∀ row ∈ [new], ∃ l, linkOf? row = some l := List.forall_mem_singleton.2 hlinked
  unfold unlinkRow at hrun
  split at hrun
  · next hremove =>
    obtain ⟨hok, -⟩ := h.remove hremovable hremove
    simp at hok
  · next hremove =>
    obtain ⟨-, x, hx, hclear', hgone⟩ := h.remove hremovable hremove
    simp only [rowsLink_singleton, hlinks] at hgone
    refine hx.putBack hbefore (hclear'.trans hclear) ?_ hheld ?_ hrun
    · intro key a b hl
      obtain ⟨⟨hl, -⟩ | hnew, hnot⟩ := (hgone key a b).1 hl
      · exact hl
      · exact absurd hnew hnot
    · intro hother
      have hnot : before.Link key a b → linkOf? new ≠ some (key, a, b) :=
        fun hl hnew => hspare hnew hother hl
      rw [hgone]
      tauto

end

/-! ## Rows of one definition -/

/-- The manager of a name holds a link exactly when one of some rows has it, all of which have links. -/
def TracksLink (e : Enforcer σ) (name key a b : String) (rows : List Row) : Prop :=
  ∃ m, e.Manages name m ∧ (∀ row ∈ rows, ∃ l, linkOf? row = some l) ∧
    (m.Link key a b ↔ RowsLink rows key a b)

/-- The manager of a role definition holds a link exactly when a stored row has it. -/
def TracksStored (e : Enforcer σ) (name key a b : String) : Prop :=
  ∃ d, e.model.find? "g" name = some d ∧ e.TracksLink name key a b d.rows

theorem TracksLink.of_eq {e k : Enforcer σ} {rows : List Row} (h : e.TracksLink name key a b rows)
    (hconfig : k.config = e.config) (hmanagers : k.managers.find name = e.managers.find name) :
    k.TracksLink name key a b rows := by
  obtain ⟨m, hm, hlinked, hlink⟩ := h
  exact ⟨m, hm.of_eq hconfig hmanagers, hlinked, hlink⟩

theorem TracksLink.congr {e : Enforcer σ} {rows others : List Row} (h : e.TracksLink name key a b rows)
    (hmem : ∀ row, row ∈ rows ↔ row ∈ others) : e.TracksLink name key a b others := by
  obtain ⟨m, hm, hlinked, hlink⟩ := h
  refine ⟨m, hm, fun row hrow => hlinked row ((hmem row).2 hrow), hlink.trans ?_⟩
  simp only [RowsLink, hmem]

theorem tracksStored_setRows {e : Enforcer σ} {m : Model} {d : Definition}
    (hd : m.find? "g" name = some d) (h : e.TracksLink name key a b d.rows) (changed : Bool) :
    (e.setRows m changed).TracksStored name key a b := by
  refine ⟨d, ?_, h.of_eq rfl rfl⟩
  rw [find?_setRows]
  exact hd

variable [PolicyStore σ]

section

variable {e k : Enforcer σ} {d : Definition} (hd : e.model.find? "g" name = some d)
  (h : e.TracksLink name key a b d.rows)

include hd h

theorem tracksStored_addRows {rows : List Row} {result : Except Error Bool}
    (hspare : d.Fresh rows → (∃ err, result = .error err) → RowsLink rows key a b →
      ¬ RowsLink (k.model.rows "g" name) key a b)
    (hrun : e.addRows "g" name rows = (result, k)) : k.TracksStored name key a b := by
  obtain ⟨m, hm, hlinked, hlink⟩ := id h
  cases adds_of_addRows hrun with
  | refused => exact ⟨d, hd, h⟩
  | unlinked hx hfresh hadd =>
    obtain rfl := Option.some.inj (hd.symm.trans hx)
    obtain ⟨front, row, rest, l, rfl, hl, -, hlinks⟩ := hm.add_error hadd
    have hafter : k.model.find? "g" name = some d := model_followRows hadd ▸ hd
    rw [Model.rows_of_find? hafter] at hspare
    refine ⟨d, hafter, l, hl, hlinked, ?_⟩
    have hnot : RowsLink d.rows key a b → ¬ RowsLink front key a b := fun hold hfront =>
      hspare hfresh ⟨_, rfl⟩ (hfront.mono fun r hr => List.mem_append_left _ hr) hold
    rw [hlinks, hlink]
    tauto
  | unstored hx hfresh hadd hstore hundo =>
    obtain rfl := Option.some.inj (hd.symm.trans hx)
    obtain ⟨hnew, l, hl, -, hlinks⟩ := hm.add hadd
    -- the store refused: the links that were just added go, and with them those that were there
    obtain ⟨-, y, hy, -, hback⟩ := (hl.persist hstore).remove hnew hundo
    have hmodel : k.model = e.model :=
      (model_followRows hundo).trans ((model_persist hstore).trans (model_followRows hadd))
    have hafter : k.model.find? "g" name = some d := hmodel ▸ hd
    rw [Model.rows_of_find? hafter] at hspare
    refine ⟨d, hafter, y, hy, hlinked, ?_⟩
    have hnot : RowsLink d.rows key a b → ¬ RowsLink rows key a b := fun hold hrows =>
      hspare hfresh ⟨_, rfl⟩ hrows hold
    rw [hback, hlinks, hlink]
    tauto
  | misfiled hsec => simp at hsec
  | @added _ _ s _ hadded =>
    obtain ⟨-, hx, hfresh, hadd, hstore, rfl⟩ := hadded
    obtain rfl := Option.some.inj (hd.symm.trans hx)
    obtain ⟨hnew, l, hl, -, hlinks⟩ := hm.add hadd
    have htracks : s.TracksLink name key a b (d.rows ++ rows) := by
      refine ⟨l, hl.persist hstore, fun row hrow => ?_, ?_⟩
      · rcases List.mem_append.1 hrow with hold | hrow
        · exact hlinked row hold
        · exact hnew row hrow
      · rw [hlinks, rowsLink_append, hlink]
    refine tracksStored_setRows (Model.find?_modify_self hd _) (htracks.congr fun row => ?_) true
    rw [(d.rows_insertAll rows).mem_iff, List.mem_append, List.mem_append, or_comm]

theorem tracksStored_removeRows (htidy : d.Tidy) {rows : List Row} {result : Except Error Bool}
    (hspare : result = .ok true → RowsLink rows key a b → ¬ RowsLink (k.model.rows "g" name) key a b)
    (hrun : e.removeRows "g" name rows = (result, k)) : k.TracksStored name key a b := by
  obtain ⟨m, hm, hlinked, hlink⟩ := id h
  have hremovable : (∀ row ∈ rows, d.contains row = true) → ∀ row ∈ rows, ∃ l, linkOf? row = some l :=
    fun hold row hrow => hlinked row ((htidy.contains_iff row).1 (hold row hrow))
  cases removes_of_removeRows hrun with
  | refused => exact ⟨d, hd, h⟩
  | unstored hstore => exact ⟨d, model_persist hstore ▸ hd, m, hm.persist hstore, hlinked, hlink⟩
  | linked hx hold hstore hunlink =>
    obtain rfl := Option.some.inj (hd.symm.trans hx)
    obtain ⟨hok, -⟩ := (hm.persist hstore).remove (hremovable hold) hunlink
    simp at hok
  | misfiled hsec => simp at hsec
  | @removed _ _ l _ hremoved =>
    obtain ⟨-, hx, hold, hstore, hunlink, rfl⟩ := hremoved
    obtain rfl := Option.some.inj (hd.symm.trans hx)
    obtain ⟨-, x, hl, -, hlinks⟩ := (hm.persist hstore).remove (hremovable hold) hunlink
    have hafter := Model.find?_modify_self hd (·.eraseAll rows)
    rw [Model.rows_of_find? ((find?_setRows l _ true name).trans hafter), htidy.rows_eraseAll] at hspare
    refine tracksStored_setRows hafter ⟨x, hl, ?_, ?_⟩ true
    · rw [htidy.rows_eraseAll]
      exact fun row hrow => hlinked row (List.mem_of_mem_filter hrow)
    · rw [htidy.rows_eraseAll, rowsLink_filter (hspare rfl), hlinks, hlink]

theorem tracksStored_removeFiltered {index : Nat} {values : List String} {result : Except Error Bool}
    (hspare : result = .ok true → RowsLink (d.rows.filter (rowMatches index values)) key a b →
      ¬ RowsLink (k.model.rows "g" name) key a b)
    (hrun : e.removeFiltered "g" name index values = (result, k)) : k.TracksStored name key a b := by
  obtain ⟨m, hm, hlinked, hlink⟩ := id h
  cases removesFiltered_of_removeFiltered hrun with
  | refused => exact ⟨d, hd, h⟩
  | unstored hstore => exact ⟨d, model_persist hstore ▸ hd, m, hm.persist hstore, hlinked, hlink⟩
  | misfiled hsec => simp at hsec
  | none _ hstore hremove =>
    obtain ⟨store, rfl⟩ := persist_eq hstore
    obtain ⟨x, hx, hrows⟩ := Model.find?_removeFiltered hremove hd
    exact ⟨x, hx, TracksLink.congr (h.of_eq rfl rfl) fun row => by simp [hrows]⟩
  | @linked _ s _ m' _ _ _ hstore hremove hunlink =>
    have hs : ({ s with model := m' } : Enforcer σ).Manages name m := (hm.persist hstore).of_eq rfl rfl
    obtain ⟨hok, -⟩ := hs.remove (fun row hrow =>
      hlinked row (Model.mem_of_removeFiltered hremove hd row hrow)) hunlink
    simp at hok
  | @removed _ s l m' removed _ hstore hremove hunlink =>
    have hs : ({ s with model := m' } : Enforcer σ).Manages name m := (hm.persist hstore).of_eq rfl rfl
    obtain ⟨-, y, hy, -, hlinks⟩ := hs.remove (fun row hrow =>
      hlinked row (Model.mem_of_removeFiltered hremove hd row hrow)) hunlink
    obtain ⟨x, hx, hrows⟩ := Model.find?_removeFiltered hremove hd
    have hgone : RowsLink removed key a b → RowsLink (d.rows.filter (rowMatches index values)) key a b := by
      rcases Model.removeFiltered_cases hremove with ⟨-, rfl⟩ | ⟨z, hz, rfl, -⟩
      · exact fun hnone => absurd hnone (rowsLink_nil key a b)
      · rw [Option.some.inj (hz.symm.trans hd)]
        exact id
    rw [Model.rows_of_find? ((find?_setRows l _ true name).trans hx), hrows] at hspare
    refine tracksStored_setRows hx ⟨y, hy, ?_, ?_⟩ true
    · rw [hrows]
      exact fun row hrow => hlinked row (List.mem_of_mem_filter hrow)
    · rw [hrows, rowsLink_filter fun hremoved => hspare rfl (hgone hremoved), hlinks, hlink]

theorem tracksStored_updateRow (htidy : d.Tidy) {old new : Row} {result : Except Error Bool}
    (hspare : result = .ok true → linkOf? old = some (key, a, b) → linkOf? new ≠ some (key, a, b) →
      ¬ RowsLink (k.model.rows "g" name) key a b)
    (hspare' : (∃ err, result = .error err) → linkOf? new = some (key, a, b) →
      linkOf? old ≠ some (key, a, b) → ¬ RowsLink (k.model.rows "g" name) key a b)
    (hrun : e.updateRow "g" name old new = (result, k)) : k.TracksStored name key a b := by
  obtain ⟨m, hm, hlinked, hlink⟩ := id h
  have hold : d.Replaces old new → old ∈ d.rows := fun hrow => (htidy.contains_iff old).1 hrow.there
  have hheld : d.Replaces old new → linkOf? old = some (key, a, b) → m.Link key a b :=
    fun hrow hmine => hlink.2 ⟨old, hold hrow, hmine⟩
  cases updates_of_updateRow hrun with
  | refused => exact ⟨d, hd, h⟩
  | unlinked hx hrow hrelink =>
    obtain rfl := Option.some.inj (hd.symm.trans hx)
    rcases hm.relink (hlinked old (hold hrow)) (hheld hrow) hrelink with
      ⟨hok, -⟩ | ⟨-, l, hl, hsame⟩
    · simp at hok
    · exact ⟨d, model_relinkRow hrelink ▸ hd, l, hl, hlinked, hsame.trans hlink⟩
  | unstored hx hrow hrelink hstore hundo =>
    obtain rfl := Option.some.inj (hd.symm.trans hx)
    rcases hm.relink (hlinked old (hold hrow)) (hheld hrow) hrelink with
      ⟨-, hnew, l, hl, hclear, hlinks⟩ | ⟨⟨_, herr⟩, -⟩
    · have hmodel : k.model = e.model := by
        obtain ⟨_, rfl⟩ := relinked_unlinkRow hundo
        exact (model_persist hstore).trans (model_relinkRow hrelink)
      have hafter : k.model.find? "g" name = some d := hmodel ▸ hd
      rw [Model.rows_of_find? hafter] at hspare'
      obtain ⟨x, hx, hsame⟩ := (hl.persist hstore).unlink hm.sound hclear hlinks hnew (hheld hrow)
        (fun hmine hother hbefore => hspare' ⟨_, rfl⟩ hmine hother (hlink.1 hbefore)) hundo
      exact ⟨d, hafter, x, hx, hlinked, hsame.trans hlink⟩
    · simp at herr
  | misfiled hsec => simp at hsec
  | @updated _ _ s _ hx hrow hrelink hstore =>
    obtain rfl := Option.some.inj (hd.symm.trans hx)
    have hthere : d.rows.contains old = true := List.contains_iff_mem.2 (hold hrow)
    rcases hm.relink (hlinked old (hold hrow)) (hheld hrow) hrelink with
      ⟨-, hnew, l, hl, -, hlinks⟩ | ⟨⟨_, herr⟩, -⟩
    · have hafter := Model.find?_modify_self hd (·.replace old new)
      have hperm := Definition.rows_replace (hold hrow) new
      have hbefore := rowsLink_of_perm_cons (List.perm_cons_erase (hold hrow)) key a b
      rw [Model.rows_of_find? ((find?_setRows s _ _ name).trans hafter), hthere] at hspare
      refine tracksStored_setRows hafter ⟨l, hl.persist hstore, fun row hmem => ?_, ?_⟩ _
      · rcases List.mem_cons.1 (hperm.mem_iff.1 hmem) with rfl | hmem
        · exact hnew
        · exact hlinked row (List.mem_of_mem_erase hmem)
      · rw [rowsLink_of_perm_cons hperm] at hspare ⊢
        rw [hlinks, hlink, hbefore]
        have hshared : linkOf? old = some (key, a, b) → RowsLink (d.rows.erase old) key a b →
            linkOf? new = some (key, a, b) := fun hmine hrest =>
          by_contra fun hother => hspare rfl hmine hother (Or.inr hrest)
        constructor
        · rintro (⟨hmine | hrest, hother⟩ | hadded)
          · exact absurd hmine hother
          · exact Or.inr hrest
          · exact Or.inl hadded
        · rintro (hadded | hrest)
          · exact Or.inr hadded
          · by_cases hmine : linkOf? old = some (key, a, b)
            · exact Or.inr (hshared hmine hrest)
            · exact Or.inl ⟨Or.inr hrest, hmine⟩
    · simp at herr

end

/-! ## Runs -/

/-- The calls that take the link of a row away: a removal or an update that goes through, and an addition of
new rows or an update that fails, when what was linked is unlinked. -/
inductive Call.DropsLink (e : Enforcer σ) (name key a b : String) : Call σ → Prop where
  | refused {d : Definition} {rows : List Row} {err : Error} (hd : e.model.find? "g" name = some d)
      (hfresh : d.Fresh rows) (h : (e.addRows "g" name rows).1 = .error err)
      (hmine : RowsLink rows key a b) : DropsLink e name key a b (.addRows "g" name rows)
  | removed {rows : List Row} (h : (e.removeRows "g" name rows).1 = .ok true)
      (hmine : RowsLink rows key a b) : DropsLink e name key a b (.removeRows "g" name rows)
  | filtered {index : Nat} {values : List String}
      (h : (e.removeFiltered "g" name index values).1 = .ok true)
      (hmine : RowsLink (e.model.filteredRows "g" name index values) key a b) :
      DropsLink e name key a b (.removeFiltered "g" name index values)
  | replaced {old new : Row} (h : (e.updateRow "g" name old new).1 = .ok true)
      (hold : linkOf? old = some (key, a, b)) (hnew : linkOf? new ≠ some (key, a, b)) :
      DropsLink e name key a b (.updateRow "g" name old new)
  | unreplaced {old new : Row} {err : Error} (h : (e.updateRow "g" name old new).1 = .error err)
      (hold : linkOf? old ≠ some (key, a, b)) (hnew : linkOf? new = some (key, a, b)) :
      DropsLink e name key a b (.updateRow "g" name old new)

/-- The calls that change rows. -/
def Call.changesRows : Call σ → Bool
  | .addRows .. | .removeRows .. | .removeFiltered .. | .updateRow .. => true
  | _ => false

/-- A change of rows that does not take away a link that a row stored after it has. -/
def Call.SparesLink (e : Enforcer σ) (name key a b : String) (c : Call σ) : Prop :=
  c.changesRows = true ∧
    (c.DropsLink e name key a b → ¬ RowsLink ((e.perform c).2.model.rows "g" name) key a b)

/-- A role definition whose manager holds a link exactly when a stored row has it, if there is one. -/
structure InStepAt (e : Enforcer σ) (name key a b : String) : Prop where
  valid : e.Valid
  tracks : ∀ d, e.model.find? "g" name = some d → e.TracksLink name key a b d.rows

theorem InStepAt.steps {e k : Enforcer σ} {sec other : String} (h : e.InStepAt name key a b)
    (hsteps : e.Steps sec other k) (hvalid : k.Valid)
    (hmine : sec = "g" → other = name → ∀ d, e.model.find? "g" name = some d → d.Tidy →
      e.TracksLink name key a b d.rows → k.TracksStored name key a b) : k.InStepAt name key a b where
  valid := hvalid
  tracks x hx := by
    have hsetup := sameSetup_steps hsteps
    obtain ⟨d, hd, -⟩ := Model.find?_of_bare hsetup.model.bare hx
    by_cases hsame : sec = "g" ∧ other = name
    · obtain ⟨y, hy, htracks⟩ := hmine hsame.1 hsame.2 d hd (h.valid.model.tidy "g" name d hd) (h.tracks d hd)
      rwa [Option.some.inj (hx.symm.trans hy)]
    · obtain ⟨hmodel, hmanagers⟩ := steps_frame hsteps hsame
      exact (h.tracks x (hmodel ▸ hx)).of_eq hsetup.config hmanagers

theorem InStepAt.perform {e : Enforcer σ} (h : e.InStepAt name key a b) {c : Call σ}
    (hc : c.SparesLink e name key a b) : (e.perform c).2.InStepAt name key a b := by
  obtain ⟨hchanges, hspare⟩ := hc
  have hvalid := valid_perform h.valid c
  cases c with
  | addRows sec other rows =>
    refine h.steps (steps_addRows rfl) hvalid fun hsec hname d hd _ htracks => ?_
    subst hsec hname
    exact tracksStored_addRows hd htracks
      (fun hfresh ⟨_, herr⟩ hrows => hspare (.refused hd hfresh herr hrows)) rfl
  | removeRows sec other rows =>
    refine h.steps (steps_removeRows rfl) hvalid fun hsec hname d hd htidy htracks => ?_
    subst hsec hname
    exact tracksStored_removeRows hd htracks htidy (fun hok hrows => hspare (.removed hok hrows)) rfl
  | removeFiltered sec other index values =>
    refine h.steps (steps_removeFiltered rfl) hvalid fun hsec hname d hd _ htracks => ?_
    subst hsec hname
    refine tracksStored_removeFiltered hd htracks (fun hok hrows => hspare (.filtered hok ?_)) rfl
    rwa [Model.filteredRows, Model.rows_of_find? hd]
  | updateRow sec other old new =>
    refine h.steps (steps_updateRow rfl) hvalid fun hsec hname d hd htidy htracks => ?_
    subst hsec hname
    exact tracksStored_updateRow hd htracks htidy (fun hok hold hnew => hspare (.replaced hok hold hnew))
      (fun ⟨_, herr⟩ hnew hold => hspare (.unreplaced herr hold hnew)) rfl
  | _ => simp [Call.changesRows] at hchanges

theorem Linking.inStepAt {e : Enforcer σ} (h : e.Linking) (name key a b : String) :
    e.InStepAt name key a b where
  valid := h.1.valid
  tracks d hd := by
    obtain ⟨settings, m, hm, -, hsound, hfollows⟩ := (h.1.consistent h.2).tracks h.1.valid hd
    exact ⟨m, ⟨h.2, hm, hsound⟩, hfollows.linked, hfollows.link_iff key a b⟩

/-- Every state of a run that spares a link is in step as to this link. -/
theorem Reachable.inStepAt {e : Enforcer σ}
    (h : Reachable Linking (fun e c => c.SparesLink e name key a b) e) : e.InStepAt name key a b := by
  induction h with
  | start h => exact h.inStepAt name key a b
  | step c _ hc ih => exact ih.perform hc

/-! ## Two rows with one link -/

/-- Two rows with one link, and a third. -/
def sharedRows : List Row := [["a", "b", "d", "x"], ["a", "b", "d", "y"], ["c", "b", "d", "z"]]

/-- The links of the three rows. -/
def sharedLinks : LinkGraph := (({} : LinkGraph).link "a" "b").link "c" "b"

/-- A definition with four fields that holds the three rows. -/
def sharing : Enforcer MemoryStore :=
  strict (wideThenNarrow.modify "g" "g" (·.insertAll sharedRows)) (pairOfManagers [("d", sharedLinks)] [])

theorem linking_wideThenNarrow : Linking (strict wideThenNarrow (pairOfManagers [] [])) :=
  ⟨⟨wideThenNarrow, {}, { autoSave := false, rejectCycles := true }, ⟨_, rfl⟩, rfl⟩, rfl⟩

set_option maxRecDepth 20000 in
theorem addRows_sharing : (strict wideThenNarrow (pairOfManagers [] [])).addRows "g" "g" sharedRows =
    (.ok true, sharing) := by
  have htidy := linking_wideThenNarrow.1.valid.model.tidy "g" "g" (.make "g" "g" "_, _, _, _") rfl
  have hlink : (strict wideThenNarrow (pairOfManagers [] [])).followRows "g" "g" .add sharedRows =
      (.ok (), strict wideThenNarrow (pairOfManagers [("d", sharedLinks)] [])) := rfl
  exact addRows_unsaved (Or.inr rfl) rfl htidy (by decide) (by decide) (by decide) (by decide) rfl rfl hlink

set_option maxRecDepth 20000 in
theorem reachable_sharing {allowed : Enforcer MemoryStore → Call MemoryStore → Prop}
    (ha : allowed (strict wideThenNarrow (pairOfManagers [] [])) (.addRows "g" "g" sharedRows)) :
    Reachable Linking allowed sharing := by
  have h0 : Reachable Linking allowed (strict wideThenNarrow (pairOfManagers [] [])) :=
    .start linking_wideThenNarrow
  have h1 := h0.step (.addRows "g" "g" sharedRows) ha
  have hk : ((strict wideThenNarrow (pairOfManagers [] [])).perform
      (.addRows "g" "g" sharedRows)).2 = sharing := congrArg Prod.snd addRows_sharing
  rwa [hk] at h1

/-- The definition without the rows that have a field, with the links that are left. -/
def sharingWithout (index : Nat) (value : String) (links : LinkGraph) : Enforcer MemoryStore :=
  strict (sharing.model.modify "g" "g" fun d => (d.eraseWhere (rowMatches index [value])).1)
    (pairOfManagers [("d", links)] [])

/-! ## Top theorem (proved from the lemmas above) -/

/-- **Shared links.**  Take any run of additions, removals, removals by fields and updates of rows, under any
definitions and over any store, from a new enforcer that builds links automatically; and any link of a role
definition, however many fields that has.  If no call takes this link away from one row, by dropping or
replacing it or by failing to add it, while a row stored afterwards has the link too, then at the end the
manager of the definition holds the link exactly when a stored row begins with its name, its role and its
domain. -/
theorem link_iff_spared {e : Enforcer σ} (h : Reachable Linking (fun e c => c.SparesLink e name key a b) e)
    {d : Definition} (hd : e.model.find? "g" name = some d) :
    ∃ m, e.managers.find name = some m ∧ (m.Link key a b ↔
      ∃ row ∈ d.rows, row[0]? = some a ∧ row[1]? = some b ∧ RoleManager.domainKey row[2]? = key) := by
  obtain ⟨m, hm, -, hlink⟩ := h.inStepAt.tracks d hd
  refine ⟨m, hm.found, ?_⟩
  rw [hlink, RowsLink]
  simp only [linkOf?_eq_some_iff_fields]

set_option maxRecDepth 20000 in
/-- Two rows have the link, and the row that is dropped has another one. -/
theorem link_iff_spared_shared : ∃ e : Enforcer MemoryStore,
    Reachable Linking (fun e c => c.SparesLink e "g" "d" "a" "b") e ∧
      e.model.rows "g" "g" = [["a", "b", "d", "x"], ["a", "b", "d", "y"]] ∧
        ∃ m, e.managers.find "g" = some m ∧ m.Link "d" "a" "b" := by
  have h1 : Reachable Linking (fun e c => c.SparesLink e "g" "d" "a" "b") sharing := by
    refine reachable_sharing ⟨rfl, ?_⟩
    rintro (⟨-, -, herr, -⟩ | _ | _ | _ | _)
    rw [addRows_sharing] at herr
    simp at herr
  have hspares : Call.SparesLink sharing "g" "d" "a" "b" (.removeFiltered "g" "g" 0 ["c"]) := by
    refine ⟨rfl, ?_⟩
    rintro (_ | _ | ⟨-, row, hrow, hl⟩ | _ | _)
    obtain rfl : row = ["c", "b", "d", "z"] := List.mem_singleton.1 hrow
    simp [linkOf?] at hl
  have h2 : Reachable Linking (fun e c => c.SparesLink e "g" "d" "a" "b")
      (sharingWithout 0 "c" (sharedLinks.unlink "c" "b")) :=
    h1.step (.removeFiltered "g" "g" 0 ["c"]) hspares
  obtain ⟨m, hm, hlink⟩ := link_iff_spared h2 rfl
  exact ⟨_, h2, rfl, m, hm, hlink.2 ⟨["a", "b", "d", "x"], List.mem_cons_self, rfl, rfl, rfl⟩⟩

set_option maxRecDepth 20000 in
/-- Not every link of a stored row is held: one of two rows that share it is dropped, and the other stays
without a link. -/
theorem not_always_link_shared : ¬ ∀ (e : Enforcer MemoryStore) (name : String) (d : Definition),
    Reachable Linking (fun _ c => c.changesRows = true) e → e.model.find? "g" name = some d →
      4 ≤ d.fields.length → ∀ row ∈ d.rows, ∀ a b domain,
        row[0]? = some a → row[1]? = some b → row[2]? = some domain →
          ∃ m, e.managers.find name = some m ∧ m.Link domain a b := by
  intro hall
  have h1 : Reachable Linking (fun _ c => c.changesRows = true) sharing := reachable_sharing rfl
  have h2 : Reachable Linking (fun _ c => c.changesRows = true)
      (sharingWithout 3 "x" (sharedLinks.unlink "a" "b")) :=
    h1.step (.removeFiltered "g" "g" 3 ["x"]) rfl
  obtain ⟨m, hm, hlink⟩ := hall _ "g" _ h2 rfl (by decide) ["a", "b", "d", "y"] List.mem_cons_self
    "a" "b" "d" rfl rfl rfl
  rw [← Option.some.inj hm] at hlink
  exact absurd hlink (by decide)

end Enforcer

end AccessControl
