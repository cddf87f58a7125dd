import AccessControl.Proofs.Enforcer.Agreement
import AccessControl.Proofs.Enforcer.Resorting
import AccessControl.Proofs.Enforcer.Valid
/-!
# What a removal by fields takes, and what it leaves

A removal by fields takes rows of one definition, and the links of these rows where links follow rows.
Every other row and link is left, whether the removal goes through or fails: rows that are too short to be
links have none that could be lost, and the rows of a definition are all of one length.

    the links that are left are those of no row that was taken         (`Sound.link_applyBatch_remove`)
    e.DropsRows gone l → l.DropsRows gone' k → e.DropsRows (gone and gone') k
                                                                       (`DropsRows.trans`)
    whatever a removal by fields answers, it takes matching rows only  (`Valid.deletesWhere_removeFiltered`)
-/

namespace AccessControl

theorem two_le_of_linkOf? {row : Row} {l : String × String × String} (h : linkOf? row = some l) :
    2 ≤ row.length := by
  obtain ⟨key, a, b⟩ := l
  obtain ⟨rest, rfl, -⟩ := (linkOf?_eq_some_iff row key a b).1 h
  simp

/-- A link tells the first three fields of a row of known length. -/
theorem getElem?_eq_of_linkOf? {row other : Row} {l : String × String × String}
    (hlen : row.length = other.length) (h : linkOf? row = some l) (h' : linkOf? other = some l) {i : Nat}
    (hi : i < 3) : row[i]? = other[i]? := by
  obtain ⟨key, a, b⟩ := l
  obtain ⟨rest, rfl, hkey⟩ := (linkOf?_eq_some_iff row key a b).1 h
  obtain ⟨rest', rfl, hkey'⟩ := (linkOf?_eq_some_iff other key a b).1 h'
  match i, hi with
  | 0, _ | 1, _ => rfl
  | 2, _ =>
    match rest, rest' with
    | [], [] => rfl
    | d :: _, d' :: _ => exact congrArg some (hkey.trans hkey'.symm)
    | [], _ :: _ | _ :: _, [] => simp at hlen

/-- Rows of one length that are dropped take their links with them.  If they are too short for links the
batch stops at the first one, and there is nothing to take back. -/
theorem RoleManager.Sound.link_applyBatch_remove {m k : RoleManager} (hm : m.Sound) {rows : List Row}
    {n : Nat} (hlen : ∀ row ∈ rows, row.length = n) {result : Except Error Unit}
    (h : m.applyBatch .remove rows = (result, k)) (key a b : String) :
    k.Link key a b ↔ m.Link key a b ∧ ¬ RowsLink rows key a b := by
  by_cases hn : 2 ≤ n
  · obtain ⟨l, hl⟩ := m.applyRows_remove fun row hrow => linkOf?_isSome (hn.trans_eq (hlen row hrow).symm)
    rw [RoleManager.applyBatch_ok_iff.2 hl] at h
    obtain ⟨-, rfl⟩ := Prod.mk.inj h
    exact hm.link_applyRows hl key a b
  · have hnone : ∀ row ∈ rows, ∀ l, linkOf? row ≠ some l := fun row hrow l hl =>
      hn (hlen row hrow ▸ two_le_of_linkOf? hl)
    rcases m.applyBatch_cases .remove rows with ⟨l, hl, hb⟩ | ⟨front, row, rest, mid, err, rfl, hfront, -, hb⟩
    · rw [hb] at h
      obtain ⟨-, rfl⟩ := Prod.mk.inj h
      exact hm.link_applyRows hl key a b
    · have hempty : front = [] := List.eq_nil_iff_forall_not_mem.2 fun r hr => by
        obtain ⟨l, hl⟩ := hm.linkOf?_of_applyRows hfront r hr
        exact hnone r (List.mem_append_left _ hr) l hl
      subst hempty
      obtain ⟨-, rfl⟩ := Prod.mk.inj hfront
      obtain ⟨-, rfl⟩ := Prod.mk.inj (hb.symm.trans h)
      exact (and_iff_left fun ⟨r, hr, hl⟩ => hnone r hr _ hl).symm

/-- Rows of one definition, and none of the others. -/
def onlyAt (sec name : String) (rows : List Row) (other otherName : String) : List Row :=
  if sec = other ∧ name = otherName then rows else []

@[simp] theorem onlyAt_self (sec name : String) (rows : List Row) : onlyAt sec name rows sec name = rows :=
  if_pos ⟨rfl, rfl⟩

theorem onlyAt_of_ne {sec name other otherName : String} (h : ¬ (sec = other ∧ name = otherName))
    (rows : List Row) : onlyAt sec name rows other otherName = [] := if_neg h

theorem eq_of_mem_onlyAt {sec name other otherName : String} {rows : List Row} {row : Row}
    (h : row ∈ onlyAt sec name rows other otherName) : (sec = other ∧ name = otherName) ∧ row ∈ rows := by
  unfold onlyAt at h
  split at h
  · next hsame => exact ⟨hsame, h⟩
  · simp at h

theorem onlyAt_nil (sec name : String) : onlyAt sec name [] = fun _ _ => [] := by
  funext other otherName
  exact ite_self _

/-- Whether a row is one of a definition and matches values. -/
def MatchesAt (sec name : String) (index : Nat) (values : List String) (other otherName : String)
    (row : Row) : Prop :=
  (other = sec ∧ otherName = name) ∧ rowMatches index values row = true

/-! ## Models -/

namespace Model

variable {m k : Model} {sec name : String} {index : Nat} {values : List String} {removed : List Row}

/-- Rows that are dropped by their fields match; those of the definition that are left do not, unless no
values are asked for. -/
theorem matches_of_removeFiltered (h : m.removeFiltered sec name index values = .ok (k, removed)) :
    (∀ row ∈ removed, rowMatches index values row = true) ∧
      (values ≠ [] → ∀ row ∈ k.rows sec name, rowMatches index values row = false) := by
  unfold removeFiltered at h
  split at h
  · simp at h
  · next d hd =>
    split at h
    · next hempty =>
      obtain ⟨-, rfl⟩ := Prod.mk.inj (Except.ok.inj h)
      exact ⟨by simp, fun hvalues => absurd (List.isEmpty_iff.1 hempty) hvalues⟩
    · obtain ⟨rfl, rfl⟩ := Prod.mk.inj (Except.ok.inj h)
      refine ⟨fun row hrow => (List.mem_filter.1 hrow).2, fun _ row hrow => ?_⟩
      rw [rows_of_find? (find?_modify_self (find?_of_findRows hd) _), Definition.rows_eraseWhere] at hrow
      simpa using (List.mem_filter.1 hrow).2

/-- A removal by fields takes rows of one definition out of their list. -/
theorem rows_removeFiltered (h : m.removeFiltered sec name index values = .ok (k, removed))
    (other otherName : String) :
    (m.rows other otherName).Perm (onlyAt sec name removed other otherName ++ k.rows other otherName) ∧
      (k.rows other otherName).Sublist (m.rows other otherName) := by
  rcases removeFiltered_cases h with ⟨rfl, rfl⟩ | ⟨d, hd, rfl, rfl⟩
  · rw [onlyAt_nil]
    exact ⟨List.Perm.refl _, List.Sublist.refl _⟩
  · by_cases hsame : sec = other ∧ name = otherName
    · obtain ⟨rfl, rfl⟩ := hsame
      rw [onlyAt_self, rows_of_find? hd, rows_of_find? (find?_modify_self hd _), Definition.rows_eraseWhere]
      exact ⟨(List.filter_append_perm _ d.rows).symm, List.filter_sublist⟩
    · rw [onlyAt_of_ne hsame, rows_modify_of_ne _ _ _ _ hsame]
      exact ⟨List.Perm.refl _, List.Sublist.refl _⟩

/-- The rows of a definition are all of one length. -/
theorem WellFormed.length_eq_of_mem_rows (hm : m.WellFormed) {row other : Row}
    (hrow : row ∈ m.rows sec name) (hother : other ∈ m.rows sec name) : row.length = other.length := by
  cases hd : m.find? sec name with
  | none => simp [rows, hd] at hrow
  | some d =>
    rw [rows_of_find? hd] at hrow hother
    have htidy := hm.tidy sec name d hd
    rw [htidy.arity row hrow, htidy.arity other hother]

/-- Only policy rows are sorted. -/
theorem rows_resorted (m : Model) (sec name : String) :
    (m.resorted.rows sec name).Perm (m.rows sec name) ∧
      ((sec = "p" → Enforcer.ordersBySubject m = false) → m.resorted.rows sec name = m.rows sec name) := by
  by_cases hsec : sec = "p"
  · subst hsec
    refine ⟨m.rows_resorted_perm name, fun horder => ?_⟩
    rw [resorted, if_neg (by simp [horder rfl])]
  · have hsame : m.resorted.rows sec name = m.rows sec name := by
      unfold resorted
      split
      · rw [rows, m.find?_sortBySubject_of_ne hsec, rows]
      · rfl
    exact ⟨hsame ▸ List.Perm.refl _, fun _ => hsame⟩

end Model

namespace Enforcer

variable {σ : Type}

/-! ## Fewer rows and links -/

/-- Whether the managers of one enforcer have the links of those of another, but for the links of rows that
are gone, where links follow rows. -/
def UnlinksRows (e : Enforcer σ) (gone : String → String → List Row) (k : Enforcer σ) : Prop :=
  ∀ name m, e.managers.find name = some m → ∃ l, k.managers.find name = some l ∧
    ∀ key a b, l.Link key a b ↔
      m.Link key a b ∧ ¬ (e.config.autoLinks = true ∧ RowsLink (gone "g" name) key a b)

/-- From one enforcer to another that differs in its store and has fewer rows and links: of every definition
some rows are gone, and where links follow rows, the links of those.  The rows that are left are in their
order, unless they are policy rows and those are sorted. -/
structure DropsRows (e : Enforcer σ) (gone : String → String → List Row) (k : Enforcer σ) : Prop where
  setup : e.SameSetup k
  rows : ∀ sec name, (e.model.rows sec name).Perm (gone sec name ++ k.model.rows sec name)
  order : ∀ sec name, (sec = "p" → ordersBySubject e.model = false) →
    (k.model.rows sec name).Sublist (e.model.rows sec name)
  links : e.UnlinksRows gone k

section

variable {e k l : Enforcer σ} {gone others : String → String → List Row}

theorem DropsRows.refl (e : Enforcer σ) : e.DropsRows (fun _ _ => []) e where
  setup := SameSetup.refl e
  rows _ _ := List.Perm.refl _
  order _ _ _ := List.Sublist.refl _
  links _ m hm := ⟨m, hm, fun key a b => by simp⟩

theorem DropsRows.trans (h : e.DropsRows gone l) (h' : l.DropsRows others k) :
    e.DropsRows (fun sec name => gone sec name ++ others sec name) k where
  setup := h.setup.trans h'.setup
  rows sec name := by
    rw [List.append_assoc]
    exact (h.rows sec name).trans ((h'.rows sec name).append_left _)
  order sec name horder := by
    refine (h'.order sec name fun hsec => ?_).trans (h.order sec name horder)
    rw [Model.ordersBySubject_of_bare h.setup.model.bare]
    exact horder hsec
  links name m hm := by
    obtain ⟨x, hx, hlinks⟩ := h.links name m hm
    obtain ⟨y, hy, hlinks'⟩ := h'.links name x hx
    refine ⟨y, hy, fun key a b => ?_⟩
    rw [hlinks', hlinks, h.setup.config, rowsLink_append]
    tauto

theorem DropsRows.mem_gone (h : e.DropsRows gone k) {sec name : String} {row : Row} (hrow : row ∈ gone sec name) :
    row ∈ e.model.rows sec name := (h.rows sec name).mem_iff.2 (List.mem_append_left _ hrow)

theorem DropsRows.mem_left (h : e.DropsRows gone k) {sec name : String} {row : Row}
    (hrow : row ∈ k.model.rows sec name) : row ∈ e.model.rows sec name :=
  (h.rows sec name).mem_iff.2 (List.mem_append_right _ hrow)

/-- What holds of two enforcers holds when policy rows are sorted after it. -/
theorem DropsRows.resorted (h : e.DropsRows gone k) : e.DropsRows gone { k with model := k.model.resorted } where
  setup := h.setup.trans (sameSetup_model k (Model.evolves_resorted k.model))
  rows sec name :=
    (h.rows sec name).trans ((k.model.rows_resorted sec name).1.symm.append_left _)
  order sec name horder := by
    have hsame : k.model.resorted.rows sec name = k.model.rows sec name :=
      (k.model.rows_resorted sec name).2 fun hsec =>
        (Model.ordersBySubject_of_bare h.setup.model.bare).trans (horder hsec)
    show (k.model.resorted.rows sec name).Sublist _
    rw [hsame]
    exact h.order sec name horder
  links := h.links

end

/-! ## A removal by fields -/

section

variable {sec name : String} {e k : Enforcer σ}

/-- Where links follow rows, those of the rows given go, and no others. -/
theorem unlinksRows_followRows (hsound : e.managers.AllSound) {rows : List Row} {n : Nat}
    (hlen : ∀ row ∈ rows, row.length = n) {result : Except Error Unit}
    (h : e.followRows sec name .remove rows = (result, k)) : e.UnlinksRows (onlyAt sec name rows) k := by
  intro other m hm
  have hsame : ¬ (e.config.autoLinks = true ∧ sec = "g" ∧ name = other) →
      k.managers.find other = some m → ∃ l, k.managers.find other = some l ∧ ∀ key a b, l.Link key a b ↔
        m.Link key a b ∧
          ¬ (e.config.autoLinks = true ∧ RowsLink (onlyAt sec name rows "g" other) key a b) := by
    intro hnot hk
    refine ⟨m, hk, fun key a b => (and_iff_left ?_).symm⟩
    rintro ⟨hauto, row, hrow, -⟩
    exact hnot ⟨hauto, (eq_of_mem_onlyAt hrow).1⟩
  unfold followRows at h
  split at h
  · next hfollow =>
    obtain ⟨rfl, hauto⟩ : sec = "g" ∧ e.config.autoLinks = true := by simpa using hfollow
    unfold linkRows at h
    split at h
    · next hnone =>
      obtain ⟨-, rfl⟩ := Prod.mk.inj h
      refine hsame ?_ hm
      rintro ⟨-, -, rfl⟩
      simp [hnone] at hm
    · next x hx =>
      rcases hb : x.applyBatch .remove rows with ⟨r, l⟩
      rw [hb] at h
      obtain ⟨-, rfl⟩ := Prod.mk.inj h
      by_cases hname : name = other
      · subst hname
        obtain rfl := Option.some.inj (hx.symm.trans hm)
        refine ⟨l, Table.find_put_self _ _ _, fun key a b => ?_⟩
        rw [onlyAt_self, and_iff_right hauto]
        exact (hsound name x hx).link_applyBatch_remove hlen hb key a b
      · exact hsame (fun hall => hname hall.2.2) ((Table.find_put_of_ne _ _ hname).trans hm)
  · next hfollow =>
    obtain ⟨-, rfl⟩ := Prod.mk.inj h
    exact hsame (fun hall => hfollow (by simp [hall.1, hall.2.1])) hm

variable {index : Nat} {values : List String} {m : Model} {removed : List Row}
  (hremove : e.model.removeFiltered sec name index values = .ok (m, removed))

include hremove

theorem dropsRows_of_model (hsetup : e.SameSetup k) (hmodel : k.model = m)
    (hlinks : e.UnlinksRows (onlyAt sec name removed) k) : e.DropsRows (onlyAt sec name removed) k where
  setup := hsetup
  rows other otherName := hmodel ▸ (Model.rows_removeFiltered hremove other otherName).1
  order other otherName _ := hmodel ▸ (Model.rows_removeFiltered hremove other otherName).2
  links := hlinks

theorem sameSetup_removeFiltered (store : σ) : e.SameSetup { e with store, model := m } :=
  ⟨rfl, rfl, rfl, rfl, Model.evolves_removeFiltered hremove, rfl, id⟩

/-- The rows that match leave the model, and then their links are dropped or cannot be. -/
theorem Valid.dropsRows_followRows [PolicyStore σ] (he : e.Valid) {store : σ} {result : Except Error Unit}
    (h : ({ e with store, model := m } : Enforcer σ).followRows sec name .remove removed = (result, k)) :
    e.DropsRows (onlyAt sec name removed) k := by
  obtain ⟨n, hlen⟩ : ∃ n, ∀ row ∈ removed, row.length = n := by
    rcases Model.removeFiltered_cases hremove with ⟨-, rfl⟩ | ⟨d, hd, rfl, -⟩
    · exact ⟨0, by simp⟩
    · exact ⟨d.fields.length, fun row hrow =>
        (he.model.tidy sec name d hd).arity row (List.mem_of_mem_filter hrow)⟩
  have hsound : ({ e with store, model := m } : Enforcer σ).managers.AllSound := he.managers
  have hsetup := (sameSetup_removeFiltered hremove store).trans (sameSetup_steps (steps_followRows h))
  exact dropsRows_of_model hremove hsetup (model_followRows h) (unlinksRows_followRows hsound hlen h)

end

/-! ## Deletions -/

/-- An answer, and what is gone then of the rows that satisfy a test: of every definition all of them or
none, and none is left where the answer is no error. -/
structure DeletesWhere (e : Enforcer σ) (test : String → String → Row → Prop) (result : Except Error Bool)
    (gone : String → String → List Row) (k : Enforcer σ) : Prop extends e.DropsRows gone k where
  only : ∀ sec name, ∀ row ∈ gone sec name, test sec name row
  all : ∀ sec name, gone sec name ≠ [] → ∀ row ∈ k.model.rows sec name, ¬ test sec name row
  answer : ∀ changed, result = .ok changed → (changed = true ↔ ∃ sec name, gone sec name ≠ []) ∧
    ∀ sec name, ∀ row ∈ k.model.rows sec name, ¬ test sec name row

section

variable {e k l : Enforcer σ} {test : String → String → Row → Prop} {result : Except Error Bool}
  {gone : String → String → List Row}

/-- Nothing is gone when there is an error. -/
theorem DropsRows.deletesWhere_error (h : e.DropsRows (fun _ _ => []) k) (test : String → String → Row → Prop)
    (err : Error) : e.DeletesWhere test (.error err) (fun _ _ => []) k where
  toDropsRows := h
  only _ _ _ hrow := absurd hrow List.not_mem_nil
  all _ _ hne := absurd rfl hne
  answer _ hok := by simp at hok

theorem DeletesWhere.congr (h : e.DeletesWhere test result gone k) {other : String → String → Row → Prop}
    (hiff : ∀ sec name row, test sec name row ↔ other sec name row) : e.DeletesWhere other result gone k := by
  obtain rfl : test = other := by
    funext sec name row
    exact propext (hiff sec name row)
  exact h

/-- Two deletions that are about different definitions, one after the other. -/
theorem DeletesWhere.trans (h : e.DeletesWhere test result gone l) {test' : String → String → Row → Prop}
    {result' final : Except Error Bool} {gone' : String → String → List Row}
    (h' : l.DeletesWhere test' result' gone' k)
    (hapart : ∀ sec name row row', test sec name row → ¬ test' sec name row')
    (hfinal : ∀ changed, final = .ok changed →
      ∃ a b, result = .ok a ∧ result' = .ok b ∧ changed = (a || b)) :
    e.DeletesWhere (fun sec name row => test sec name row ∨ test' sec name row) final
      (fun sec name => gone sec name ++ gone' sec name) k where
  toDropsRows := h.toDropsRows.trans h'.toDropsRows
  only sec name row hrow := (List.mem_append.1 hrow).imp (h.only sec name row) (h'.only sec name row)
  all sec name hne row hrow := by
    rintro (hrow' | hrow')
    · -- the rows that are gone satisfy the first test, as this one does, so they went first
      by_cases hgone : gone sec name = []
      · obtain ⟨other, hother⟩ := List.exists_mem_of_ne_nil _ hne
        rw [hgone, List.nil_append] at hother
        exact hapart sec name row other hrow' (h'.only sec name other hother)
      · exact h.all sec name hgone row (h'.mem_left hrow) hrow'
    · by_cases hgone : gone' sec name = []
      · obtain ⟨other, hother⟩ := List.exists_mem_of_ne_nil _ hne
        rw [hgone, List.append_nil] at hother
        exact hapart sec name other row (h.only sec name other hother) hrow'
      · exact h'.all sec name hgone row hrow hrow'
  answer changed hok := by
    obtain ⟨a, b, ha, hb, rfl⟩ := hfinal changed hok
    obtain ⟨hsome, hnone⟩ := h.answer a ha
    obtain ⟨hsome', hnone'⟩ := h'.answer b hb
    refine ⟨?_, fun sec name row hrow => ?_⟩
    · rw [Bool.or_eq_true, hsome, hsome']
      simp only [ne_eq, List.append_eq_nil_iff, not_and_or, exists_or]
    · rintro (hrow' | hrow')
      · exact hnone sec name row (h'.mem_left hrow) hrow'
      · exact hnone' sec name row hrow hrow'

end

section

variable {sec name : String} {e k : Enforcer σ} {index : Nat} {values : List String}

/-- The answer of a removal that goes through. -/
theorem removeFiltered_answer [PolicyStore σ] {changed : Bool}
    (h : e.removeFiltered sec name index values = (.ok changed, k)) {m : Model} {removed : List Row}
    (hremove : e.model.removeFiltered sec name index values = .ok (m, removed)) :
    changed = true ↔ removed ≠ [] := by
  unfold removeFiltered at h
  split at h
  · simp at h
  · split at h
    · simp at h
    · next hstore =>
      rw [model_persist hstore, hremove] at h
      cases removed with
      | nil => simpa using (Except.ok.inj (Prod.mk.inj h).1).symm
      | cons row rest =>
        dsimp only at h
        split at h
        · simp at h
        · simpa using (Except.ok.inj (Prod.mk.inj h).1).symm

/-- Rows that match and are gone are all that matched. -/
theorem DropsRows.deletesWhere_matching {m : Model} {removed : List Row}
    (h : e.DropsRows (onlyAt sec name removed) k) (hvalues : values ≠ [])
    (hremove : e.model.removeFiltered sec name index values = .ok (m, removed))
    (hrows : ∀ row ∈ k.model.rows sec name, row ∈ m.rows sec name) {result : Except Error Bool}
    (hresult : ∀ changed, result = .ok changed → (changed = true ↔ removed ≠ [])) :
    e.DeletesWhere (MatchesAt sec name index values) result (onlyAt sec name removed) k := by
  obtain ⟨hgone, hleft⟩ := Model.matches_of_removeFiltered hremove
  have hnone : ∀ other otherName, ∀ row ∈ k.model.rows other otherName,
      ¬ MatchesAt sec name index values other otherName row := by
    rintro _ _ row hrow ⟨⟨rfl, rfl⟩, hmatches⟩
    rw [hleft hvalues row (hrows row hrow)] at hmatches
    simp at hmatches
  refine ⟨h, fun other otherName row hrow => ?_, fun other otherName _ => hnone other otherName,
    fun changed hok => ⟨?_, hnone⟩⟩
  · obtain ⟨⟨rfl, rfl⟩, hmem⟩ := eq_of_mem_onlyAt hrow
    exact ⟨⟨rfl, rfl⟩, hgone row hmem⟩
  · rw [hresult changed hok]
    constructor
    · exact fun hne => ⟨sec, name, by rwa [onlyAt_self]⟩
    · rintro ⟨other, otherName, hne⟩ rfl
      rw [onlyAt_nil] at hne
      exact hne rfl

/-! ## Top theorem (proved from the lemmas above) -/

/-- **A removal by fields takes the rows that match.**  Whatever it answers, it takes rows of its definition
only, all that match or none, and links of these rows only; if it answers without an error, none that match
are left. -/
theorem Valid.deletesWhere_removeFiltered [PolicyStore σ] (he : e.Valid) (hvalues : values ≠ [])
    {result : Except Error Bool} (h : e.removeFiltered sec name index values = (result, k)) :
    ∃ gone, e.DeletesWhere (MatchesAt sec name index values) result gone k := by
  cases removesFiltered_of_removeFiltered h with
  | refused => exact ⟨_, (DropsRows.refl e).deletesWhere_error _ _⟩
  | unstored hstore | misfiled _ _ hstore =>
    obtain ⟨store, rfl⟩ := persist_eq hstore
    exact ⟨_, DropsRows.deletesWhere_error ⟨sameSetup_store e store, fun _ _ => List.Perm.refl _,
      fun _ _ _ => List.Sublist.refl _, (DropsRows.refl e).links⟩ _ _⟩
  | none _ hstore hremove =>
    obtain ⟨store, rfl⟩ := persist_eq hstore
    have hdrops := dropsRows_of_model hremove (sameSetup_removeFiltered hremove store) rfl
      (by rw [onlyAt_nil]; exact (DropsRows.refl e).links)
    exact ⟨_, hdrops.deletesWhere_matching hvalues hremove (fun _ hrow => hrow) (by simp)⟩
  | linked _ hstore hremove hunlink =>
    obtain ⟨store, rfl⟩ := persist_eq hstore
    refine ⟨_, (he.dropsRows_followRows hremove hunlink).deletesWhere_matching hvalues hremove ?_ (by simp)⟩
    rw [model_followRows hunlink]
    exact fun _ hrow => hrow
  | @removed d s l m removed _ hstore hremove hunlink =>
    obtain ⟨store, rfl⟩ := persist_eq hstore
    have hmodel : l.model = m := model_followRows hunlink
    rw [setRows_eq, ← hmodel]
    refine ⟨_, (he.dropsRows_followRows hremove hunlink).resorted.deletesWhere_matching hvalues hremove
      (fun row hrow => ?_) fun changed hok => removeFiltered_answer (hok ▸ h) hremove⟩
    rw [← hmodel]
    exact (l.model.rows_resorted sec name).1.mem_iff.1 hrow

end

end Enforcer

end AccessControl
