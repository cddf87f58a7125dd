import AccessControl.Authorizer.Roles
import AccessControl.Proofs.Authorizer.Permissions
import AccessControl.Proofs.Enforcer.Drops
/-!
# What goes with a user, a role, or the roles of a user

Users and roles are deleted by removals by fields, in which an empty value is no demand.  So what a deletion
takes is what it asks for: the rows that name the user or the role, as long as it has a name, and that name
the domain, as long as it has one.  An empty text asks for nothing, and takes what others have.

    the rows asked for go, all of a definition or none                 (`Valid.deletesWhere_run`)
    c.NamesGiven → (c.Asks sec name row ↔ c.NamesRow sec name row)             (`Deletion.asks_iff_namesRow`)
    every other row and link is left                                   (`run_deletes`)
    no name, or no name of a domain, takes what others have            (`not_always_takesNamed`)
-/

namespace AccessControl

/-- The calls that delete by names. -/
inductive Deletion where
  | user (text : String)
  | role (text : String)
  | rolesOf (text : String) (domain : Option String)
  deriving DecidableEq

namespace Deletion

open Authorizer in
def run {α : Type} [Authorizer α] (a : α) : Deletion → Except Error Bool × α
  | .user text => deleteUser a text
  | .role text => deleteRole a text
  | .rolesOf text domain => deleteRolesForUser a text domain

/-- Whether the names and the domain given are not empty. -/
def NamesGiven : Deletion → Prop
  | .user text | .role text => text ≠ ""
  | .rolesOf text domain => text ≠ "" ∧ domain ≠ some ""

instance : DecidablePred NamesGiven
  | .user text | .role text => inferInstanceAs (Decidable (text ≠ ""))
  | .rolesOf text domain => inferInstanceAs (Decidable (text ≠ "" ∧ domain ≠ some ""))

/-- The rows that a deletion is about, where `is` tells which texts a field can be. -/
def About (is : Option String → String → Prop) : Deletion → (sec name : String) → Row → Prop
  | .user text, sec, name, row =>
    (sec = "g" ∧ name = "g" ∨ sec = "p" ∧ name = "p") ∧ is row[0]? text
  | .role text, sec, name, row =>
    sec = "g" ∧ name = "g" ∧ is row[1]? text ∨ sec = "p" ∧ name = "p" ∧ is row[0]? text
  | .rolesOf text domain, sec, name, row =>
    sec = "g" ∧ name = "g" ∧ is row[0]? text ∧ ∀ d ∈ domain, is row[2]? d

/-- The rows that name the user, the role, or the user and the domain. -/
def NamesRow : Deletion → (sec name : String) → Row → Prop := About fun field text => field = some text

instance : (c : Deletion) → (sec name : String) → (row : Row) → Decidable (c.NamesRow sec name row)
  | .user text, sec, name, row => inferInstanceAs
    (Decidable ((sec = "g" ∧ name = "g" ∨ sec = "p" ∧ name = "p") ∧ row[0]? = some text))
  | .role text, sec, name, row => inferInstanceAs
    (Decidable (sec = "g" ∧ name = "g" ∧ row[1]? = some text ∨ sec = "p" ∧ name = "p" ∧ row[0]? = some text))
  | .rolesOf text domain, sec, name, row => inferInstanceAs
    (Decidable (sec = "g" ∧ name = "g" ∧ row[0]? = some text ∧ ∀ d ∈ domain, row[2]? = some d))

/-- The rows that a deletion asks for: an empty text can be any field, also one that is not there. -/
def Asks : Deletion → (sec name : String) → Row → Prop :=
  About fun field text => text = "" ∨ field = some text

theorem asks_iff_namesRow {c : Deletion} (hc : c.NamesGiven) (sec name : String) (row : Row) :
    c.Asks sec name row ↔ c.NamesRow sec name row := by
  cases c with
  | user text | role text =>
    have hne : text ≠ "" := hc
    simp [Asks, NamesRow, About, hne]
  | rolesOf text domain =>
    obtain ⟨htext, hdomain⟩ := hc
    have hne : ∀ d, domain = some d → d ≠ "" := fun d hd heq => hdomain (heq ▸ hd)
    simp only [Asks, NamesRow, About, htext, false_or]
    refine and_congr_right fun _ => and_congr_right fun _ => and_congr_right fun _ =>
      forall_congr' fun d => imp_congr_right fun hd => or_iff_right (hne d hd)

/-- A deletion looks at the first three fields only. -/
theorem about_congr {is : Option String → String → Prop} (c : Deletion) (sec name : String)
    {row other : Row} (h : ∀ i < 3, row[i]? = other[i]?) :
    c.About is sec name row ↔ c.About is sec name other := by
  cases c <;> simp [About, h]

end Deletion

theorem matchesAt_singleton (sec name : String) (index : Nat) (text other otherName : String) (row : Row) :
    MatchesAt sec name index [text] other otherName row ↔
      (other = sec ∧ otherName = name) ∧ (text = "" ∨ row[index]? = some text) := by
  simp [MatchesAt, rowMatches]

namespace Enforcer

variable {σ : Type} [PolicyStore σ] {e k : Enforcer σ} {result : Except Error Bool}

/-! ## What is taken -/

/-- Role rows with a name in a field go, and then policy rows with it as subject. -/
theorem Valid.deletesWhere_deleteName (he : e.Valid) {index : Nat} {name : String}
    (h : Authorizer.deleteName e index name = (result, k)) :
    ∃ gone, e.DeletesWhere (fun sec other row => MatchesAt "g" "g" index [name] sec other row ∨
      MatchesAt "p" "p" 0 [name] sec other row) result gone k := by
  have hapart : ∀ sec other row row', MatchesAt "g" "g" index [name] sec other row →
      ¬ MatchesAt "p" "p" 0 [name] sec other row' := by
    rintro _ _ row row' ⟨⟨rfl, rfl⟩, -⟩ ⟨⟨hsec, -⟩, -⟩
    simp at hsec
  have hvalues : [name] ≠ [] := List.cons_ne_nil _ _
  unfold Authorizer.deleteName at h
  split at h
  · next err _ hlinks =>
    obtain ⟨gone, hgone⟩ := he.deletesWhere_removeFiltered hvalues hlinks
    obtain ⟨rfl, rfl⟩ := Prod.mk.inj h
    exact ⟨_, hgone.trans ((DropsRows.refl _).deletesWhere_error _ err) hapart (by simp)⟩
  · next hlinks =>
    obtain ⟨gone, hgone⟩ := he.deletesWhere_removeFiltered hvalues hlinks
    split at h
    · next hrules =>
      obtain ⟨gone', hgone'⟩ := (hgone.setup.valid he).deletesWhere_removeFiltered hvalues hrules
      obtain ⟨rfl, rfl⟩ := Prod.mk.inj h
      exact ⟨_, hgone.trans hgone' hapart (by simp)⟩
    · next hrules =>
      obtain ⟨gone', hgone'⟩ := (hgone.setup.valid he).deletesWhere_removeFiltered hvalues hrules
      obtain ⟨rfl, rfl⟩ := Prod.mk.inj h
      exact ⟨_, hgone.trans hgone' hapart fun changed hok =>
        ⟨_, _, rfl, rfl, (Except.ok.inj hok).symm⟩⟩

/-- Whatever a deletion answers, it takes rows that it asks for, all of a definition or none. -/
theorem Valid.deletesWhere_run (he : e.Valid) {c : Deletion} (h : c.run e = (result, k)) :
    ∃ gone, e.DeletesWhere c.Asks result gone k := by
  cases c with
  | user text | role text =>
    obtain ⟨gone, hgone⟩ := he.deletesWhere_deleteName h
    refine ⟨gone, hgone.congr fun sec other row => ?_⟩
    rw [matchesAt_singleton, matchesAt_singleton]
    simp only [Deletion.Asks, Deletion.About]
    tauto
  | rolesOf text domain =>
    have hrun : e.removeFiltered "g" "g" 0 (Authorizer.roleRow text "" domain) = (result, k) := h
    obtain ⟨gone, hgone⟩ := he.deletesWhere_removeFiltered (List.cons_ne_nil _ _) hrun
    refine ⟨gone, hgone.congr fun sec other row => ?_⟩
    simp only [Deletion.Asks, Deletion.About]
    cases domain <;> simp [MatchesAt, rowMatches, and_assoc]

omit [PolicyStore σ] in
/-- A role row that is left has no link of a row that is gone: a deletion asks for all rows with that link. -/
theorem DeletesWhere.not_rowsLink {c : Deletion} {gone : String → String → List Row} (he : e.Valid)
    (h : e.DeletesWhere c.Asks result gone k) {name : String} {row : Row}
    (hrow : row ∈ k.model.rows "g" name) {key a b : String} (hl : linkOf? row = some (key, a, b)) :
    ¬ RowsLink (gone "g" name) key a b := by
  rintro ⟨other, hother, hl'⟩
  have hlen : row.length = other.length :=
    he.model.length_eq_of_mem_rows (h.mem_left hrow) (h.mem_gone hother)
  have hasks := (c.about_congr "g" name fun i hi => getElem?_eq_of_linkOf? hlen hl hl' hi).2
    (h.only "g" name other hother)
  exact h.all "g" name (List.ne_nil_of_mem hother) row hrow hasks

/-! ## Top theorem (proved from the lemmas above) -/

/-- **A deletion takes what it asks for.**  In every state that any calls lead to, over any store, whatever
is deleted and whatever the answer is: of every definition all rows that are asked for are gone, or none, and
none is left where the answer is no error; every other row is left, and so is every link but those of the
rows that are gone, none of which is the link of a row that is left.  Where no name and no domain is empty,
the rows that are gone are those that name the user, the role, or the user and the domain. -/
theorem run_deletes (h : Reachable Made (fun _ _ => True) e) {c : Deletion}
    (hrun : c.run e = (result, k)) :
    ∃ gone, e.DeletesWhere c.Asks result gone k ∧
      (c.NamesGiven → ∀ sec name, ∀ row ∈ gone sec name, c.NamesRow sec name row) ∧
      ∀ name, ∀ row ∈ k.model.rows "g" name, ∀ key a b, linkOf? row = some (key, a, b) →
        ¬ RowsLink (gone "g" name) key a b := by
  have hvalid := h.valid fun _ h => h
  obtain ⟨gone, hgone⟩ := hvalid.deletesWhere_run hrun
  refine ⟨gone, hgone, fun hc sec name row hrow => ?_, fun name row hrow key a b hl => ?_⟩
  · exact (Deletion.asks_iff_namesRow hc sec name row).1 (hgone.only sec name row hrow)
  · exact hgone.not_rowsLink hvalid hrow hl

set_option maxRecDepth 20000 in
/-- With a user its role goes, and neither the role of the role nor what that is granted. -/
theorem run_deletes_ann : ∃ k, (Deletion.user "ann").run ladder = (.ok true, k) ∧
    ["ann", "staff"] ∉ k.model.rows "g" "g" ∧ ["staff", "admin"] ∈ k.model.rows "g" "g" ∧
      ["admin", "data", "read"] ∈ k.model.rows "p" "p" := by
  have hmade : Reachable Made (fun _ _ => True) ladder :=
    (reachable_ladder.mono fun _ h => h.made).mono_calls fun _ _ _ => trivial
  have hrun : (Deletion.user "ann").run ladder = (.ok true, ((Deletion.user "ann").run ladder).2) := rfl
  obtain ⟨gone, hdeletes, hnames, -⟩ := run_deletes hmade hrun
  have hleft : ∀ sec name row, row ∈ ladder.model.rows sec name → row[0]? ≠ some "ann" →
      row ∈ ((Deletion.user "ann").run ladder).2.model.rows sec name := by
    intro sec name row hrow hother
    rcases List.mem_append.1 ((hdeletes.rows sec name).mem_iff.1 hrow) with hgone | hleft
    · exact absurd (hnames (by decide) sec name row hgone).2 hother
    · exact hleft
  refine ⟨_, hrun, fun hmem => ?_, hleft "g" "g" _ (by decide) (by decide),
    hleft "p" "p" _ (by decide) (by decide)⟩
  exact (hdeletes.answer true rfl).2 "g" "g" _ hmem ⟨Or.inl ⟨rfl, rfl⟩, Or.inr rfl⟩

/-- Whether every row that a deletion takes names what is deleted. -/
def TakesNamed (e : Enforcer σ) (c : Deletion) : Prop :=
  ∀ sec name, ∀ row ∈ e.model.rows sec name, row ∉ (c.run e).2.model.rows sec name → c.NamesRow sec name row

/-- Deletions of who or what has no name, and of the roles in a domain without one. -/
def unnamed : List Deletion := [.user "", .role "", .rolesOf "" none, .rolesOf "guest" (some "")]

set_option maxRecDepth 20000 in
/-- Who has no name takes the permissions and roles of all with it, and a domain without a name takes the
roles in all domains. -/
theorem not_always_takesNamed :
    (¬ ∀ (e : Enforcer MemoryStore) (c : Deletion), Reachable Made (fun _ _ => True) e → e.TakesNamed c) ∧
      ∀ c ∈ unnamed, ¬ ladder.TakesNamed c := by
  have hmade : Reachable Made (fun _ _ => True) ladder :=
    (reachable_ladder.mono fun _ h => h.made).mono_calls fun _ _ _ => trivial
  have hroles : ∀ c ∈ unnamed, ∃ row ∈ ladder.model.rows "g" "g",
      row ∉ (c.run ladder).2.model.rows "g" "g" ∧ ¬ c.NamesRow "g" "g" row := by decide
  have hladder : ∀ c ∈ unnamed, ¬ ladder.TakesNamed c := by
    intro c hc htakes
    obtain ⟨row, hrow, hgone, hnot⟩ := hroles c hc
    exact hnot (htakes "g" "g" row hrow hgone)
  exact ⟨fun hall => hladder (.user "") List.mem_cons_self (hall ladder _ hmade), hladder⟩

end Enforcer

end AccessControl
