import AccessControl.Proofs.Enforcer.ConsistentRuns
import AccessControl.Proofs.Store.Answers
/-!
# Loads that fail

A load can fail while the store is read, at a line that does not fit, or when the links of the rows it
read are refused.  By then the links of all managers were dropped and some of the new ones added, so the
links of the old rows are built anew.  This cannot fail: what a consistent enforcer holds is linked
already, and where cycles are refused there are none.

    e.Consistent → e.finishLoad loaded = (.error err, k) → k has the rows of e and answers as e
                                                                       (`Consistent.finishLoad_error`)
    a load that fails leaves rows and answers as they were             (`load_error_unchanged`)
-/

namespace AccessControl

namespace Enforcer

variable {σ : Type}

/-! ## What a failed load leaves -/

/-- What was read and does not go through leaves a consistent enforcer with its rows and its answers. -/
theorem Consistent.finishLoad_error {e k : Enforcer σ} (h : e.Consistent) (hvalid : e.Valid)
    (hauto : e.config.autoLinks = true) {loaded : Except Error Unit × Model × σ} {err : Error}
    (hm : e.model.Evolves loaded.2.1) (hrun : e.finishLoad loaded = (.error err, k)) :
    k.model = e.model ∧ ∀ name a b domain, k.hasLink? name a b domain = e.hasLink? name a b domain := by
  have hmodel := (Enforcer.finishLoad_error hauto hrun).1
  exact ⟨hmodel, h.hasLink?_eq (h.finishLoad hvalid hauto hm hrun) hvalid.managers
    (sameSetup_finishLoad hm hrun) hmodel⟩

/-! ## Top theorem (proved from the lemmas above) -/

/-- **Failed loads.**  Whatever the store holds or answers: in a state in which links are built
automatically and those of all managers are the links of the rows, a full or a filtered load that fails
leaves the rows of all definitions, in their order, and the answers of all managers as they were. -/
theorem load_error_unchanged [PolicyStore σ] {e k : Enforcer σ}
    (h : Reachable Made (fun _ _ => True) e) (hauto : e.config.autoLinks = true)
    (hconsistent : e.Consistent) {err : Error}
    (hrun : e.load = (.error err, k) ∨ ∃ filter, e.loadFiltered filter = (.error err, k)) :
    k.model = e.model ∧ ∀ name a b domain, k.hasLink? name a b domain = e.hasLink? name a b domain := by
  have hvalid := h.valid fun _ hmade => hmade
  rcases hrun with hrun | ⟨filter, hrun⟩ <;>
    exact hconsistent.finishLoad_error hvalid hauto
      (e.model.evolves_clear.trans (evolves_load _ _ _ _)) hrun

set_option maxRecDepth 20000 in
/-- The rows of the second definition in the store form a cycle, so they are not taken: when the second of
them is refused, the links in memory are gone and the first is linked, and they come back. -/
theorem load_cycle_unchanged : ∃ e k : Enforcer MemoryStore, ∃ err,
    e.model.rows "g" "g2" = [["alice", "admin"]] ∧ e.load = (.error err, k) ∧ k.model = e.model ∧
      ∀ name a b domain, k.hasLink? name a b domain = e.hasLink? name a b domain := by
  let rows : List Row := [["a", "b"], ["b", "a"]]
  let model := wideThenNarrow.modify "g" "g2" (·.insertAll [["alice", "admin"]])
  let before := strict model (pairOfManagers [] (oneLink noDomain "alice" "admin"))
  let e : Enforcer MemoryStore := before.setStore { lines := rows.map ("g2" :: ·) }
  have h0 : Reachable Made (fun _ _ => True) (strict wideThenNarrow (pairOfManagers [] [])) :=
    .start ⟨wideThenNarrow, {}, { autoSave := false, rejectCycles := true }, ⟨_, rfl⟩, rfl⟩
  have h1 : Reachable Made (fun _ _ => True) before :=
    h0.strict_addRows (fun _ h => h) trivial (Or.inr rfl) rfl rfl (by decide) rfl
  have h2 : Reachable Made (fun _ _ => True) e := h1.step (.setStore _) trivial
  have hvalid := h2.valid fun _ h => h
  have hconsistent : e.Consistent :=
    consistent_buildLinks (e := e) hvalid.model.toNamed (by unfold Managed; decide) rfl
  have hlines : e.model.clear.addLines (rows.map ("g2" :: ·)) =
      (.ok (), e.model.clear.modify "g" "g2" (·.insertAll rows)) :=
    Model.addLines_rows (Or.inr rfl) rfl rfl (Definition.tidy_clear _) (by decide) (by decide)
      (by decide)
  have hread : PolicyStore.load e.store e.model.clear = (.ok (), _, _) :=
    PolicyStore.finishLoad_ok hlines rfl
  have hfails : ∃ err, e.load.1 = .error err := by
    unfold load
    rw [hread]
    exact ⟨_, rfl⟩
  obtain ⟨err, herr⟩ := hfails
  have hrun : e.load = (.error err, e.load.2) := Prod.ext herr rfl
  exact ⟨e, e.load.2, err, rfl, hrun, load_error_unchanged h2 rfl hconsistent (Or.inl hrun)⟩

end Enforcer

end AccessControl
