import AccessControl.Proofs.Enforcer.Agreement
import AccessControl.Proofs.Enforcer.Consistent
import AccessControl.Proofs.Roles.Refusals
/-!
# Managers that are refused

A manager that is taken for a role definition gets the links of its rows, one after the other.  It is in its
place before the first of them, so when it refuses a row it stays there, with the links of the rows in front
of that one: the manager that was there is gone, and with it the roles of the rows that come later.

    m.Follows others → m refuses a row → m.Refuses others row err       (`Follows.refuses`)
    a cleared manager takes all of some rows, or those before the first that it refuses
                                                                        (`applyRows_clear_cases`)
    e.setManager name m fails ↔ m does not take the rows; what is then in its place
                                                                        (`setManager_refused`)
-/

namespace AccessControl

namespace RoleManager

/-- Whether a manager takes some rows: all have links, and these form no cycle if it refuses cycles. -/
def Takes (m : RoleManager) (rows : List Row) : Prop :=
  (∀ row ∈ rows, ∃ l, linkOf? row = some l) ∧ (m.rejectCycles = true → RowsAcyclic rows)

/-- Why a manager refuses a row when it holds the links of others: the row has no link, or it has one that
closes a cycle. -/
inductive Refuses (m : RoleManager) (others : List Row) (row : Row) : Error → Prop where
  | short (h : row.length < 2) : m.Refuses others row (.policy (.fieldCount "g" 2 row.length))
  | cycle (path : List String) (key name role : String) (hon : m.rejectCycles = true)
      (hrow : linkOf? row = some (key, name, role))
      (hback : name = role ∨ Relation.TransGen (RowsLink others key) role name) :
      m.Refuses others row (.role (.cycle path))

/-- A link is refused for nothing but a cycle. -/
theorem insertLink_error_cycle {m k : RoleManager} {name role : String} {domain : Option String}
    {err : RoleError} (h : m.insertLink name role domain = (.error err, k)) : ∃ path, err = .cycle path := by
  unfold insertLink at h
  dsimp only at h
  split at h
  · simp at h
  · split at h
    · exact ⟨_, (Except.error.inj (Prod.mk.inj h).1).symm⟩
    · split at h
      · simp at h
      · exact ⟨_, (Except.error.inj (Prod.mk.inj h).1).symm⟩

/-- Managers with the same settings refuse the same. -/
theorem Refuses.of_clear {m k : RoleManager} {others : List Row} {row : Row} {err : Error}
    (h : m.Refuses others row err) (hclear : k.clear = m.clear) : k.Refuses others row err := by
  cases h with
  | short h => exact .short h
  | cycle path key name role hon hrow hback =>
    exact .cycle path key name role ((rejectCycles_eq hclear).trans hon) hrow hback

/-- A row that is refused has no link, or one that closes a cycle. -/
theorem Follows.refuses {m : RoleManager} {others : List Row} (h : m.Follows others) (hm : m.Sound)
    {row : Row} {err : Error} (herr : m.applyRow .add row = .error err) : m.Refuses others row err := by
  match row, herr with
  | [], herr =>
    rw [← Except.error.inj herr]
    exact .short (by simp)
  | [_], herr =>
    rw [← Except.error.inj herr]
    exact .short (by simp)
  | name :: role :: rest, herr =>
    rw [applyRow_add, addLink] at herr
    split at herr
    · simp [Except.mapError] at herr
    · next fault k hfault =>
      obtain ⟨path, rfl⟩ := insertLink_error_cycle hfault
      rw [← Except.error.inj herr]
      have hon : m.rejectCycles = true := by
        rcases hm.insertLink_cases hm.acyclic name role rest.head? with ⟨hok, -⟩ | ⟨-, hon, -⟩
        · rw [hok] at hfault
          simp at hfault
        · exact hon
      have hback := (hm.insertLink_error_iff hon name role rest.head?).1 ⟨_, by rw [hfault]⟩
      refine .cycle path _ name role hon rfl (hback.imp id fun hchain => ?_)
      exact Relation.TransGen.mono (fun x y hxy => (h.link_iff _ x y).1 hxy) _ _ hchain

/-- A cleared manager either takes all of some rows, or holds those before the first that it refuses. -/
theorem applyRows_clear_cases (m : RoleManager) (rows : List Row) :
    (m.Takes rows ∧ ∃ full, m.clear.applyRows .add rows = (.ok (), full) ∧ full.Follows rows) ∨
      ¬ m.Takes rows ∧ ∃ front row rest half err, rows = front ++ row :: rest ∧
        m.clear.applyRows .add rows = (.error err, half) ∧ half.Follows front ∧
          m.Refuses front row err := by
  rcases hrun : m.clear.applyRows .add rows with ⟨_ | _, k⟩
  · next err =>
    obtain ⟨front, row, rest, rfl, hfront, herr⟩ := applyRows_error hrun
    have hsound : k.Sound := m.sound_clear.applyRows hfront
    have hfollows : k.Follows front := m.follows_clear.add m.sound_clear hfront
    have hrefuses : m.Refuses front row err :=
      (hfollows.refuses hsound herr).of_clear (clear_applyRows hfront).symm
    refine Or.inr ⟨?_, front, row, rest, k, err, rfl, rfl, hfollows, hrefuses⟩
    rintro ⟨hlinked, ha⟩
    obtain ⟨full, hfull, -⟩ := m.follows_clear.add_ok m.sound_clear hlinked ha
    rw [hfull] at hrun
    simp at hrun
  · have hsound : k.Sound := m.sound_clear.applyRows hrun
    have hfollows : k.Follows rows := m.follows_clear.add m.sound_clear hrun
    refine Or.inl ⟨⟨hfollows.linked, fun hon => ?_⟩, k, rfl, hfollows⟩
    exact hfollows.rowsAcyclic hsound ((rejectCycles_eq (clear_applyRows hrun)).trans hon)

end RoleManager

namespace Enforcer

variable {σ : Type}

/-- An enforcer with a manager in the place of another, and without compiled programs. -/
def withManager (e : Enforcer σ) (name : String) (m : RoleManager) : Enforcer σ :=
  { e.dropPrograms with managers := e.managers.put name m }

theorem hasLink?_withManager_of_ne (e : Enforcer σ) {name other : String} (h : other ≠ name)
    (m : RoleManager) (a b : String) (domain : Option String) :
    (e.withManager name m).hasLink? other a b domain = e.hasLink? other a b domain := by
  unfold hasLink? withManager
  dsimp only
  rw [Table.find_put_of_ne _ _ (Ne.symm h)]

theorem setManager_eq_withManager {e : Enforcer σ} {name : String} {m l : RoleManager}
    {result : Except Error Unit}
    (hrun : m.clear.applyRows .add (e.model.rows "g" name) = (result, l)) :
    e.setManager name m = (result, e.withManager name l) := by
  rw [setManager_eq hrun, Table.put_put]
  rfl

/-! ## Rows with a cycle -/

/-- Three rows, the first two of which form a cycle. -/
def cycleRows : List Row := [["a", "b"], ["b", "a"], ["alice", "admin"]]

/-- One role definition with some rows and links, where cycles are accepted and nothing is stored. -/
def lenient (rows : List Row) (links : Table LinkGraph) : Enforcer MemoryStore where
  model := Model.modify (.build [.define "g" "g" "_, _"]) "g" "g" (·.insertAll rows)
  store := {}
  managers := [("g", { domains := links })]
  config := { autoSave := false }

/-- The links of the three rows. -/
def cycleLinks : Table LinkGraph :=
  [(noDomain, ((({} : LinkGraph).link "a" "b").link "b" "a").link "alice" "admin")]

theorem reachable_lenient : Reachable Made (fun _ _ => True) (lenient cycleRows cycleLinks) := by
  have h0 : Reachable Made (fun _ _ => True) (lenient [] []) :=
    .start ⟨.build _, {}, { autoSave := false }, ⟨[.define "g" "g" "_, _"], rfl⟩, rfl⟩
  have hlink : (lenient [] []).followRows "g" "g" .add cycleRows = (.ok (), lenient [] cycleLinks) := rfl
  have hadd := perform_addRows (h0.valid fun _ h => h) (Or.inr rfl) rfl hlink (persist_unsaved rfl _)
    (by decide) rfl
  have h1 := h0.step (.addRows "g" "g" cycleRows) trivial
  rw [hadd] at h1
  exact h1

/-- The links of the first row. -/
def frontLinks : Table LinkGraph := [(noDomain, ({} : LinkGraph).link "a" "b")]

theorem setManager_lenient : ∃ err, (lenient cycleRows cycleLinks).setManager "g" { rejectCycles := true } =
    (.error err, (lenient cycleRows cycleLinks).withManager "g"
      { domains := frontLinks, rejectCycles := true }) :=
  ⟨_, setManager_eq_withManager rfl⟩

/-! ## Top theorem (proved from the lemmas above) -/

/-- **A manager that is refused.**  A new manager for a role definition is taken exactly when all rows of the
definition have links, and these form no cycle if it refuses cycles.  Otherwise the new manager is in place
all the same, with its own settings and exactly the links of the rows in front of the one it refuses, which
has no link or closes a cycle with those; the programs are dropped, and nothing else changes, so that the
managers of all other definitions answer as before. -/
theorem setManager_refused (e : Enforcer σ) (name : String) (m : RoleManager) :
    ((e.setManager name m).1 = .ok () ↔ m.Takes (e.model.rows "g" name)) ∧
      ∀ err k, e.setManager name m = (.error err, k) →
        ∃ front row rest half, e.model.rows "g" name = front ++ row :: rest ∧
          m.Refuses front row err ∧ k = e.withManager name half ∧ half.clear = m.clear ∧
          (∀ key a b, half.Link key a b ↔ RowsLink front key a b) ∧
          ∀ other, other ≠ name → ∀ a b domain,
            k.hasLink? other a b domain = e.hasLink? other a b domain := by
  rcases m.applyRows_clear_cases (e.model.rows "g" name) with
    ⟨htakes, full, hrun, -⟩ | ⟨htakes, front, row, rest, half, err, hrows, hrun, hfollows, hrefuses⟩
  · rw [setManager_eq_withManager hrun]
    refine ⟨by simp [htakes], fun err k h => ?_⟩
    simp at h
  · rw [setManager_eq_withManager hrun]
    refine ⟨by simp [htakes], fun fault k h => ?_⟩
    obtain ⟨hfault, rfl⟩ := Prod.mk.inj h
    rw [← Except.error.inj hfault]
    have hclear : half.clear = m.clear := (RoleManager.clear_applyRows hrun :)
    refine ⟨front, row, rest, half, hrows, hrefuses, rfl, hclear, hfollows.link_iff, ?_⟩
    intro other hne a b domain
    exact e.hasLink?_withManager_of_ne hne half a b domain

set_option maxRecDepth 20000 in
/-- A manager that refuses cycles stops at the second row and holds the link of the first alone. -/
theorem setManager_refused_lenient : ∃ k err front row rest half,
    (lenient cycleRows cycleLinks).setManager "g" { rejectCycles := true } = (.error err, k) ∧
      cycleRows = front ++ row :: rest ∧ k = (lenient cycleRows cycleLinks).withManager "g" half ∧
        (∀ key a b, half.Link key a b ↔ RowsLink front key a b) ∧ half.Link noDomain "a" "b" ∧
          ¬ half.Link noDomain "alice" "admin" := by
  obtain ⟨err, h⟩ := setManager_lenient
  obtain ⟨-, hrefused⟩ := setManager_refused (lenient cycleRows cycleLinks) "g" { rejectCycles := true }
  obtain ⟨front, row, rest, half, hrows, -, hk, -, hlinks, -⟩ := hrefused _ _ h
  have hhalf : ({ domains := frontLinks, rejectCycles := true } : RoleManager) = half :=
    Option.some.inj (congrArg (fun x : Enforcer MemoryStore => x.managers.find "g") hk)
  refine ⟨_, err, front, row, rest, half, h, hrows, hk, hlinks, ?_⟩
  rw [← hhalf]
  exact ⟨by decide, by decide⟩

set_option maxRecDepth 20000 in
/-- What the manager that was there answers does not stay: a role of a row behind the one that is refused is
gone. -/
theorem not_always_hasLink_kept : ¬ ∀ (e k : Enforcer MemoryStore) (name : String) (m : RoleManager)
    (err : Error), Reachable Made (fun _ _ => True) e → e.setManager name m = (.error err, k) →
      ∀ a b domain, k.hasLink? name a b domain = e.hasLink? name a b domain := by
  intro hall
  obtain ⟨err, h⟩ := setManager_lenient
  have hsame := hall _ _ "g" _ err reachable_lenient h "alice" "admin" none
  exact absurd hsame (by decide)

end Enforcer

end AccessControl
