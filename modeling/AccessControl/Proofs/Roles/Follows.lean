import AccessControl.Proofs.Roles.Rows
import AccessControl.Proofs.Table
/-!
# Managers in step with rows

A manager follows some rows when every row has a link and these are the links it holds.  Adding and
dropping rows keeps it in step, and a batch that fails halfway leaves no trace.  A rebuild puts every
manager in step up to the first definition whose rows do not fit.

    m.Follows rows → new rows are added → k.Follows (rows ++ new)      (`Follows.add`)
    m.Follows rows → old rows are dropped → k.Follows (rows without old)
                                                                       (`Follows.remove`)
    m.Follows rows → a batch of new rows fails → k.Follows rows        (`Follows.add_error`)
    the definitions in front fit → their managers follow their rows    (`RoleManagers.follows_addRows`)
-/

namespace AccessControl

namespace RoleManager

/-- The links of a manager are those of some rows, each of which has one. -/
structure Follows (m : RoleManager) (rows : List Row) : Prop where
  linked : ∀ row ∈ rows, ∃ l, linkOf? row = some l
  link_iff : ∀ key name role, m.Link key name role ↔ RowsLink rows key name role

theorem follows_clear (m : RoleManager) : m.clear.Follows [] :=
  ⟨by simp, fun key name role => by simp⟩

theorem Follows.congr {m : RoleManager} {rows others : List Row} (h : m.Follows rows)
    (hmem : ∀ row, row ∈ rows ↔ row ∈ others) : m.Follows others where
  linked row hrow := h.linked row ((hmem row).2 hrow)
  link_iff key name role := by
    rw [h.link_iff]
    simp only [RowsLink, hmem]

/-- The rows that a manager follows are acyclic where it refuses cycles. -/
theorem Follows.rowsAcyclic {m : RoleManager} {rows : List Row} (h : m.Follows rows) (hm : m.Sound)
    (hr : m.rejectCycles = true) : RowsAcyclic rows := by
  intro key name hchain
  refine hm.acyclic hr key name (Relation.TransGen.mono (fun x y hxy => ?_) _ _ hchain)
  exact (h.link_iff key x y).2 hxy

/-! ## Changing rows -/

theorem Follows.add {m k : RoleManager} {rows new : List Row} (h : m.Follows rows) (hm : m.Sound)
    (hadd : m.applyRows .add new = (.ok (), k)) : k.Follows (rows ++ new) where
  linked row hrow := by
    rcases List.mem_append.1 hrow with hold | hnew
    · exact h.linked row hold
    · exact hm.linkOf?_of_applyRows hadd row hnew
  link_iff key name role := by
    rw [hm.link_applyRows hadd, rowsLink_append, h.link_iff]
    rfl

/-- Rows can be added, where cycles are refused only if they close none. -/
theorem Follows.add_ok {m : RoleManager} {rows new : List Row} (h : m.Follows rows) (hm : m.Sound)
    (hnew : ∀ row ∈ new, ∃ l, linkOf? row = some l)
    (ha : m.rejectCycles = true → RowsAcyclic (rows ++ new)) :
    ∃ k, m.applyRows .add new = (.ok (), k) ∧ k.Follows (rows ++ new) := by
  obtain ⟨k, hk⟩ := hm.applyRows_add (RowsLink (rows ++ new))
    (fun key x y hl => (rowsLink_append rows new key x y).2 (Or.inl ((h.link_iff key x y).1 hl)))
    (fun row hrow => by
      obtain ⟨⟨key, x, y⟩, hl⟩ := hnew row hrow
      exact ⟨key, x, y, hl, row, List.mem_append_right _ hrow, hl⟩) ha
  exact ⟨k, hk, h.add hm hk⟩

/-- Rows of at most three fields can be dropped. -/
theorem Follows.remove {m : RoleManager} {rows old : List Row} (h : m.Follows rows) (hm : m.Sound)
    {n : Nat} (hn : n ≤ 3) (hlen : ∀ row ∈ rows, row.length = n) (hold : ∀ row ∈ old, row ∈ rows) :
    ∃ k, m.applyRows .remove old = (.ok (), k) ∧ k.Follows (rows.filter fun row => !old.contains row) := by
  obtain ⟨k, hk⟩ := m.applyRows_remove fun row hrow => h.linked row (hold row hrow)
  refine ⟨k, hk, fun row hrow => h.linked row (List.mem_of_mem_filter hrow), fun key x y => ?_⟩
  rw [hm.link_applyRows hk, h.link_iff]
  constructor
  · rintro ⟨⟨row, hrow, hl⟩, hnot⟩
    refine ⟨row, List.mem_filter.2 ⟨hrow, ?_⟩, hl⟩
    rw [Bool.not_eq_true', ← Bool.not_eq_true, List.contains_iff_mem]
    exact fun hmem => hnot ⟨row, hmem, hl⟩
  · rintro ⟨row, hrow, hl⟩
    obtain ⟨hrow, hkept⟩ := List.mem_filter.1 hrow
    rw [Bool.not_eq_true', ← Bool.not_eq_true, List.contains_iff_mem] at hkept
    refine ⟨⟨row, hrow, hl⟩, ?_⟩
    -- a dropped row with the same link would be the same row
    rintro ⟨other, hother, hl'⟩
    have heq : row = other := eq_of_linkOf? ((hlen row hrow).trans (hlen other (hold other hother)).symm)
      (hlen row hrow ▸ hn) hl hl'
    exact hkept (heq ▸ hother)

/-- A batch of new rows of at most three fields that fails leaves the links as they were. -/
theorem Follows.add_error {m k : RoleManager} {rows new : List Row} (h : m.Follows rows) (hm : m.Sound)
    {n : Nat} (hn : n ≤ 3) (hlen : ∀ row ∈ rows, row.length = n) (hlen' : ∀ row ∈ new, row.length = n)
    (hdisj : ∀ row ∈ new, row ∉ rows) {err : Error}
    (hb : m.applyBatch .add new = (.error err, k)) : k.Follows rows := by
  rcases m.applyBatch_cases .add new with
    ⟨l, -, hok⟩ | ⟨pre, row, post, mid, err', rfl, hpre, -, herr⟩
  · rw [hok] at hb
    simp at hb
  · rw [herr] at hb
    have hlenPre : ∀ r ∈ rows ++ pre, r.length = n := by
      intro r hr
      rcases List.mem_append.1 hr with hr | hr
      · exact hlen r hr
      · exact hlen' r (List.mem_append_left _ hr)
    obtain ⟨l, hl, hfollows⟩ := (h.add hm hpre).remove (hm.applyRows hpre) hn hlenPre
      fun r hr => List.mem_append_right rows hr
    rw [LinkChange.inverse, hl] at hb
    rw [← (Prod.mk.inj hb).2]
    refine hfollows.congr fun r => ?_
    simp only [List.mem_filter, List.mem_append, Bool.not_eq_true', ← Bool.not_eq_true,
      List.contains_iff_mem]
    constructor
    · rintro ⟨hr | hr, hnot⟩
      · exact hr
      · exact absurd hr hnot
    · intro hr
      exact ⟨Or.inl hr, fun hp => hdisj r (List.mem_append_left _ hp) hr⟩

end RoleManager

/-! ## Rebuilding -/

namespace RoleManagers

/-- Every manager is sound. -/
def AllSound (managers : RoleManagers) : Prop :=
  ∀ name m, managers.find name = some m → m.Sound

/-- The rows of a definition have links, and its manager does not refuse them. -/
def TakeRows (managers : RoleManagers) (d : Definition) : Prop :=
  ∃ m, managers.find d.key = some m ∧ (∀ row ∈ d.rows, ∃ l, linkOf? row = some l) ∧
    (m.rejectCycles = true → RowsAcyclic d.rows)

theorem AllSound.put {managers : RoleManagers} (h : managers.AllSound) (name : String)
    {m : RoleManager} (hm : m.Sound) : RoleManagers.AllSound (managers.put name m) := by
  intro other k hk
  rw [Table.find_put] at hk
  split at hk
  · rw [← Option.some.inj hk]
    exact hm
  · exact h other k hk

theorem allSound_clear (managers : RoleManagers) :
    RoleManagers.AllSound (managers.mapValues RoleManager.clear) := by
  intro name m hm
  rw [Table.find_mapValues] at hm
  obtain ⟨k, -, rfl⟩ := Option.map_eq_some_iff.1 hm
  exact k.sound_clear

theorem clears_clear (managers : RoleManagers) :
    (managers.mapValues RoleManager.clear).mapValues RoleManager.clear =
      managers.mapValues RoleManager.clear := by
  simp [Table.mapValues, Function.comp_def]

/-- Managers that were cleared follow no rows. -/
theorem follows_of_find_clear {managers : RoleManagers} {name : String} {m : RoleManager}
    (h : Table.find (managers.mapValues RoleManager.clear) name = some m) : m.Follows [] := by
  rw [Table.find_mapValues] at h
  obtain ⟨k, -, rfl⟩ := Option.map_eq_some_iff.1 h
  exact k.follows_clear

/-- A rebuild keeps the settings of all managers. -/
theorem clears_addRows (managers : RoleManagers) (defs : List Definition) :
    (managers.addRows defs).2.mapValues RoleManager.clear = managers.mapValues RoleManager.clear := by
  induction defs generalizing managers with
  | nil => rfl
  | cons d rest ih =>
    unfold RoleManagers.addRows
    split
    · rfl
    · next m hm =>
      split
      · next k hk =>
        exact (ih _).trans (Table.mapValues_put hm (RoleManager.clear_applyRows hk))
      · next k hk => exact Table.mapValues_put hm (RoleManager.clear_applyRows hk)

theorem AllSound.addRows {managers : RoleManagers} (h : managers.AllSound) (defs : List Definition) :
    (managers.addRows defs).2.AllSound := by
  induction defs generalizing managers with
  | nil => exact h
  | cons d rest ih =>
    unfold RoleManagers.addRows
    split
    · exact h
    · next m hm =>
      split
      · next k hk => exact ih (h.put d.key ((h d.key m hm).applyRows hk))
      · next k hk => exact h.put d.key ((h d.key m hm).applyRows hk)

/-- A rebuild does not touch the managers of other definitions. -/
theorem find_addRows (managers : RoleManagers) {defs : List Definition} {name : String}
    (hname : name ∉ defs.map (·.key)) : (managers.addRows defs).2.find name = managers.find name := by
  induction defs generalizing managers with
  | nil => rfl
  | cons d rest ih =>
    rw [List.map_cons, List.mem_cons, not_or] at hname
    unfold RoleManagers.addRows
    split
    · rfl
    · split
      · rw [ih _ hname.2]
        exact Table.find_put_of_ne managers _ (Ne.symm hname.1)
      · exact Table.find_put_of_ne managers _ (Ne.symm hname.1)

/-- Managers that hold no links follow the rows of their definitions after a rebuild, up to the first
definition that does not fit. -/
theorem follows_addRows {managers : RoleManagers} (hs : managers.AllSound)
    {front rest : List Definition} (hn : ((front ++ rest).map (·.key)).Nodup)
    (hempty : ∀ x ∈ front, ∀ m, managers.find x.key = some m → m.Follows [])
    (hfits : ∀ x ∈ front, managers.TakeRows x) :
    ∀ d ∈ front, ∃ k, (managers.addRows (front ++ rest)).2.find d.key = some k ∧ k.Follows d.rows := by
  induction front generalizing managers with
  | nil => simp
  | cons x front ih =>
    obtain ⟨m, hm, hlinked, ha⟩ := hfits x (by simp)
    obtain ⟨k, hk, hfollows⟩ := (hempty x (by simp) m hm).add_ok (hs x.key m hm) hlinked ha
    simp only [List.cons_append, List.map_cons, List.nodup_cons] at hn
    simp only [List.cons_append, RoleManagers.addRows, hm, hk]
    have hne : ∀ y ∈ front, x.key ≠ y.key := fun y hy heq =>
      hn.1 (heq ▸ List.mem_map_of_mem (List.mem_append_left _ hy))
    intro d hd
    rcases List.mem_cons.1 hd with rfl | hd
    · refine ⟨k, ?_, hfollows⟩
      rw [find_addRows _ hn.1, Table.find_put_self]
    · refine ih (hs.put x.key ((hs x.key m hm).applyRows hk)) hn.2 (fun y hy l hl => ?_)
        (fun y hy => ?_) d hd
      · rw [Table.find_put_of_ne _ _ (hne y hy)] at hl
        exact hempty y (List.mem_cons_of_mem _ hy) l hl
      · unfold TakeRows
        rw [Table.find_put_of_ne _ _ (hne y hy)]
        exact hfits y (List.mem_cons_of_mem _ hy)

/-- After a rebuild from no links that goes through, every manager follows the rows of its
definition. -/
theorem follows_addRows_ok {managers ks : RoleManagers} (hs : managers.AllSound)
    {defs : List Definition} (hn : (defs.map (·.key)).Nodup)
    (hempty : ∀ x ∈ defs, ∀ m, managers.find x.key = some m → m.Follows [])
    (hok : managers.addRows defs = (.ok (), ks)) :
    ∀ d ∈ defs, ∃ k, ks.find d.key = some k ∧ k.Follows d.rows := by
  induction defs generalizing managers with
  | nil => simp
  | cons x rest ih =>
    simp only [List.map_cons, List.nodup_cons] at hn
    unfold RoleManagers.addRows at hok
    split at hok
    · simp at hok
    · next m hm =>
      split at hok
      · next k hk =>
        have hput := hs.put x.key ((hs x.key m hm).applyRows hk)
        intro d hd
        rcases List.mem_cons.1 hd with rfl | hd
        · refine ⟨k, ?_, (hempty d (by simp) m hm).add (hs d.key m hm) hk⟩
          have hfind := find_addRows (managers.put d.key k) hn.1
          rwa [hok, Table.find_put_self] at hfind
        · refine ih hput hn.2 (fun y hy l hl => ?_) hok d hd
          have hne : x.key ≠ y.key := fun heq => hn.1 (heq ▸ List.mem_map_of_mem hy)
          rw [Table.find_put_of_ne _ _ hne] at hl
          exact hempty y (List.mem_cons_of_mem _ hy) l hl
      · simp at hok

/-- A rebuild from no links goes through when every definition fits. -/
theorem addRows_ok {managers : RoleManagers} (hs : managers.AllSound) {defs : List Definition}
    (hn : (defs.map (·.key)).Nodup)
    (hempty : ∀ x ∈ defs, ∀ m, managers.find x.key = some m → m.Follows [])
    (hfits : ∀ x ∈ defs, managers.TakeRows x) : ∃ ks, managers.addRows defs = (.ok (), ks) := by
  induction defs generalizing managers with
  | nil => exact ⟨managers, rfl⟩
  | cons x rest ih =>
    obtain ⟨m, hm, hlinked, ha⟩ := hfits x (by simp)
    obtain ⟨k, hk, -⟩ := (hempty x (by simp) m hm).add_ok (hs x.key m hm) hlinked ha
    simp only [List.map_cons, List.nodup_cons] at hn
    have hne : ∀ y ∈ rest, x.key ≠ y.key := fun y hy heq => hn.1 (heq ▸ List.mem_map_of_mem hy)
    simp only [RoleManagers.addRows, hm, hk]
    refine ih (hs.put x.key ((hs x.key m hm).applyRows hk)) hn.2 (fun y hy l hl => ?_) fun y hy => ?_
    · rw [Table.find_put_of_ne _ _ (hne y hy)] at hl
      exact hempty y (List.mem_cons_of_mem _ hy) l hl
    · unfold TakeRows
      rw [Table.find_put_of_ne _ _ (hne y hy)]
      exact hfits y (List.mem_cons_of_mem _ hy)

/-- Every definition fits when a rebuild from no links goes through. -/
theorem fits_of_addRows_ok {managers ks : RoleManagers} (hs : managers.AllSound)
    {defs : List Definition} (hn : (defs.map (·.key)).Nodup)
    (hempty : ∀ x ∈ defs, ∀ m, managers.find x.key = some m → m.Follows [])
    (hok : managers.addRows defs = (.ok (), ks)) : ∀ d ∈ defs, managers.TakeRows d := by
  intro d hd
  obtain ⟨k, hk, hfollows⟩ := follows_addRows_ok hs hn hempty hok d hd
  have hks : ks = (managers.addRows defs).2 := by rw [hok]
  have hsound : k.Sound := by
    rw [hks] at hk
    exact hs.addRows defs d.key k hk
  -- the manager before the rebuild has the same settings
  have hclears := congrArg (fun t : RoleManagers => t.find d.key) (clears_addRows managers defs)
  rw [← hks] at hclears
  simp only [Table.find_mapValues, hk, Option.map_some] at hclears
  obtain ⟨m, hm, hclear⟩ := Option.map_eq_some_iff.1 hclears.symm
  refine ⟨m, hm, hfollows.linked, fun hr => hfollows.rowsAcyclic hsound ?_⟩
  have hsettings : k.clear.rejectCycles = m.clear.rejectCycles := by rw [hclear]
  exact hsettings.trans hr

end RoleManagers

end AccessControl
