import AccessControl.Proofs.Enforcer.Agreement
import AccessControl.Proofs.Store.Answers
/-!
# Saving a part of the store

A filtered load puts a part of the store into memory, and a save would drop the rest.  So the store notes
which kind of load was the last to read it to the end, and after a filtered one a save is refused.  No
change of rows takes the note away.

The note is taken before the links of the rows that were read are tried.  So a full load whose links are
refused takes the note of a filtered load away and leaves its rows in memory.

    (e.perform c).2.isFiltered = c.lastRead e e.isFiltered             (`isFiltered_perform`)
    the last load that read to the end was filtered → a save is refused
                                                                       (`save_refused`)
    a full load whose links were refused was the last → a save can drop lines
                                                                       (`not_always_save_refused`)
-/

namespace AccessControl

namespace Enforcer

variable {σ : Type}

/-- Whether the load that last read its store to the end was a filtered one, after a load and when it was
so before. -/
def noteAfter (loaded : Except Error Unit × Model × σ) (filtered before : Bool) : Bool :=
  match loaded.1 with
  | .ok () => filtered
  | .error _ => before

/-- Whether a call leaves the store and the model in their places. -/
def Call.stays : Call σ → Bool
  | .setStore _ | .setModel .. => false
  | _ => true

/-! ## The store after a call -/

theorem noteAfter_of_ok {e k : Enforcer σ} {loaded : Except Error Unit × Model × σ}
    (h : e.finishLoad loaded = (.ok (), k)) (filtered before : Bool) :
    noteAfter loaded filtered before = filtered := by
  match loaded, h with
  | (.ok (), m, store), _ => rfl
  | (.error err, m, store), h => simp [finishLoad] at h

theorem store_finishLoad (e : Enforcer σ) (loaded : Except Error Unit × Model × σ) :
    (e.finishLoad loaded).2.store = loaded.2.2 := by
  match loaded with
  | (.error err, m, store) => rfl
  | (.ok (), m, store) =>
    show (({ e with store } : Enforcer σ).install m).2.store = store
    unfold install
    dsimp only
    split
    · split
      · next hlinks => exact congrArg (fun k : Enforcer σ => k.store) (Prod.mk.inj hlinks).2.symm
      · next hlinks => exact congrArg (fun k : Enforcer σ => k.store) (Prod.mk.inj hlinks).2.symm
    · rfl

theorem store_setManager (e : Enforcer σ) (name : String) (m : RoleManager) :
    (e.setManager name m).2.store = e.store := by
  rw [setManager_eq rfl]
  rfl

theorem store_changeManager (e : Enforcer σ) (name : String) (f : RoleManager → RoleManager) :
    (e.changeManager name f).2.store = e.store := by
  unfold changeManager
  split
  · rfl
  · next m _ => exact e.store_setManager name (f m)

/-! ## What the store notes -/

variable [PolicyStore σ]

/-- Whether the load that last read its store to the end was a filtered one, after a call. -/
def Call.lastRead (e : Enforcer σ) (c : Call σ) (before : Bool) : Bool :=
  match c with
  | .load => noteAfter (PolicyStore.load e.store e.model.clear) false before
  | .loadFiltered filter =>
    noteAfter (PolicyStore.loadFiltered e.store filter e.model.clear) true before
  | _ => before

section

variable [RemembersLoads σ]

/-- A load is noted when it reads the store to the end, whatever comes of it. -/
theorem isFiltered_finishLoad (e : Enforcer σ) (filtered : Bool) (reading : Reading) (m : Model) :
    (e.finishLoad (PolicyStore.finishLoad e.store filtered reading m)).2.isFiltered =
      noteAfter (PolicyStore.finishLoad e.store filtered reading m) filtered e.isFiltered := by
  unfold isFiltered
  rw [store_finishLoad]
  unfold PolicyStore.finishLoad
  split
  · rfl
  · split
    · rfl
    · exact RemembersLoads.noteLoad e.store filtered

theorem isFiltered_steps {e k : Enforcer σ} {sec name : String} (h : e.Steps sec name k) :
    k.isFiltered = e.isFiltered := by
  induction h with
  | refl => rfl
  | tail _ hstep ih =>
    rw [← ih]
    cases hstep with
    | store op => exact RemembersLoads.change _ op
    | _ => rfl

theorem isFiltered_clear {e k : Enforcer σ} {result : Except Error Unit}
    (h : e.clear = (result, k)) : k.isFiltered = e.isFiltered := by
  unfold clear at h
  split at h <;> next hpersist =>
    have hsteps : e.Steps "p" "p" _ := steps_persist operation_clear hpersist
    have hnote := isFiltered_steps hsteps
    obtain ⟨-, rfl⟩ := Prod.mk.inj h
    exact hnote

theorem isFiltered_save {e k : Enforcer σ} {result : Except Error Unit} (h : e.save = (result, k)) :
    k.isFiltered = e.isFiltered := by
  have hsave := RemembersLoads.save e.store e.model.lines
  unfold save at h
  split at h
  · rw [(Prod.mk.inj h).2]
  · split at h <;> next hstore =>
      rw [hstore] at hsave
      rw [← (Prod.mk.inj h).2]
      exact hsave

/-- Only loads change the note. -/
theorem isFiltered_perform (e : Enforcer σ) {c : Call σ} (hc : c.stays = true) :
    (e.perform c).2.isFiltered = c.lastRead e e.isFiltered := by
  cases c with
  | setStore => simp [Call.stays] at hc
  | setModel => simp [Call.stays] at hc
  | load => exact e.isFiltered_finishLoad false _ _
  | loadFiltered filter => exact e.isFiltered_finishLoad true _ _
  | addRows => exact isFiltered_steps (steps_addRows rfl)
  | removeRows => exact isFiltered_steps (steps_removeRows rfl)
  | removeFiltered => exact isFiltered_steps (steps_removeFiltered rfl)
  | updateRow => exact isFiltered_steps (steps_updateRow rfl)
  | clear => exact isFiltered_clear rfl
  | save => exact isFiltered_save rfl
  | setManager name m => exact congrArg PolicyStore.isFiltered (e.store_setManager name m)
  | setNameMatch name f => exact congrArg PolicyStore.isFiltered (e.store_changeManager name _)
  | setDomainMatch name f => exact congrArg PolicyStore.isFiltered (e.store_changeManager name _)
  | enforce ctx request =>
    obtain ⟨evaluation, heq, -⟩ := e.enforce_frame ctx request
    have hk : (e.perform (.enforce ctx request)).2 = { e with evaluation } := heq
    rw [hk]
    rfl
  | removeFunction name =>
    unfold perform removeFunction
    dsimp only
    split <;> rfl
  | _ => rfl

end

/-! ## Since a filtered load -/

/-- Whether a call keeps the rows of the last load that went through, up to changes of single rows. -/
def Call.KeepsLoad (e : Enforcer σ) (c : Call σ) : Prop :=
  match c with
  | .load => e.load.1 ≠ .ok ()
  | _ => c.stays = true

/-- The last load that went through was a filtered one, and `filtered` tells whether the last one that
read its store to the end was. -/
inductive FilteredSince : Enforcer σ → Bool → Prop where
  | load {e k : Enforcer σ} {filter : Filter} (h : Reachable Made (fun _ _ => True) e)
      (hrun : e.loadFiltered filter = (.ok (), k)) : FilteredSince k true
  | step {e : Enforcer σ} {filtered : Bool} (c : Call σ) (h : FilteredSince e filtered)
      (hc : c.KeepsLoad e) : FilteredSince (e.perform c).2 (c.lastRead e filtered)

theorem Call.KeepsLoad.stays {e : Enforcer σ} {c : Call σ} (h : c.KeepsLoad e) : c.stays = true := by
  cases c with
  | load => rfl
  | _ => exact h

/-- The store notes the last load that read it to the end. -/
theorem FilteredSince.isFiltered_eq [RemembersLoads σ] {e : Enforcer σ} {filtered : Bool}
    (h : e.FilteredSince filtered) : e.isFiltered = filtered := by
  induction h with
  | @load e k filter _ hrun =>
    have hnote : (e.loadFiltered filter).2.isFiltered =
        noteAfter (PolicyStore.loadFiltered e.store filter e.model.clear) true e.isFiltered :=
      e.isFiltered_finishLoad true _ _
    rwa [noteAfter_of_ok hrun, hrun] at hnote
  | step c _ hc ih =>
    rw [isFiltered_perform _ hc.stays, ih]

/-! ## One run -/

/-- Rows of one role definition with their links, where cycles are refused and changes are stored. -/
def linking (rows : List Row) (links : Table LinkGraph) (store : MemoryStore) :
    Enforcer MemoryStore where
  model := Model.modify (.build [.define "g" "g" "_, _"]) "g" "g" (·.insertAll rows)
  store := store
  managers := [("g", { domains := links, rejectCycles := true })]
  config := { rejectCycles := true }

/-- A store of two lines, whose links form a cycle. -/
def cycleStore (filtered : Bool) : MemoryStore :=
  { lines := [["g", "a", "b"], ["g", "b", "a"]], filtered }

/-- The first line comes in through the enforcer, a filtered load leaves it out, and the second line comes
in. -/
theorem filteredSince_linking :
    (linking [["b", "a"]] (oneLink noDomain "b" "a") (cycleStore true)).FilteredSince true := by
  let one : MemoryStore := { lines := [["g", "a", "b"]] }
  let part : MemoryStore := { one with filtered := true }
  have h0 : Reachable Made (fun _ _ => True) (linking [] [] {}) :=
    .start ⟨.build _, {}, { rejectCycles := true }, ⟨[.define "g" "g" "_, _"], rfl⟩, rfl⟩
  have hlink : (linking [] [] {}).followRows "g" "g" .add [["a", "b"]] =
      (.ok (), linking [] (oneLink noDomain "a" "b") {}) := rfl
  have hstore : (linking [] (oneLink noDomain "a" "b") {}).persist
      (storeRows "g" "g" [["a", "b"]]) = (.ok (), linking [] (oneLink noDomain "a" "b") one) := rfl
  have hadd := perform_addRows (h0.valid fun _ h => h) (Or.inr rfl) rfl hlink hstore (by decide) rfl
  have h1 := h0.step (.addRows "g" "g" [["a", "b"]]) trivial
  rw [hadd] at h1
  have hload : (linking [["a", "b"]] (oneLink noDomain "a" "b") one).loadFiltered { roles := ["c"] } =
      (.ok (), linking [] [] part) := rfl
  have h2 : Reachable Made (fun _ _ => True) (linking [] [] part) :=
    h1.step (.loadFiltered { roles := ["c"] }) trivial
  have hlink : (linking [] [] part).followRows "g" "g" .add [["b", "a"]] =
      (.ok (), linking [] (oneLink noDomain "b" "a") part) := rfl
  have hstore : (linking [] (oneLink noDomain "b" "a") part).persist
      (storeRows "g" "g" [["b", "a"]]) =
        (.ok (), linking [] (oneLink noDomain "b" "a") (cycleStore true)) := rfl
  have hadd := perform_addRows (h2.valid fun _ h => h) (Or.inr rfl) rfl hlink hstore (by decide) rfl
  have h3 := (FilteredSince.load h1 hload).step (.addRows "g" "g" [["b", "a"]]) rfl
  rw [hadd] at h3
  exact h3

set_option maxRecDepth 20000 in
/-- The two links form a cycle, so a full load leaves the part in memory, and the note is gone. -/
theorem filteredSince_refused :
    (linking [["b", "a"]] (oneLink noDomain "b" "a") (cycleStore false)).FilteredSince false := by
  let e := linking [["b", "a"]] (oneLink noDomain "b" "a") (cycleStore true)
  let rows : List Row := [["a", "b"], ["b", "a"]]
  have hlines : e.model.clear.addLines (rows.map ("g" :: ·)) =
      (.ok (), e.model.clear.modify "g" "g" (·.insertAll rows)) :=
    Model.addLines_rows (Or.inr rfl) rfl rfl (Definition.tidy_clear _) (by decide) (by decide)
      (by decide)
  have hread : PolicyStore.load e.store e.model.clear = (.ok (), _, cycleStore false) :=
    PolicyStore.finishLoad_ok hlines rfl
  have hload : ∃ err, e.load = (.error err,
      linking [["b", "a"]] (oneLink noDomain "b" "a") (cycleStore false)) := by
    unfold load
    rw [hread]
    exact ⟨_, rfl⟩
  obtain ⟨err, hload⟩ := hload
  have hstep := filteredSince_linking.step .load (by
    show e.load.1 ≠ .ok ()
    rw [hload]
    simp)
  have hnote : Call.lastRead e .load true = false := by
    unfold Call.lastRead
    dsimp only
    rw [hread]
    rfl
  have hk : (e.perform .load).2 = linking [["b", "a"]] (oneLink noDomain "b" "a") (cycleStore false) :=
    congrArg Prod.snd hload
  rwa [hnote, hk] at hstep

/-! ## Top theorem (proved from the lemmas above) -/

/-- **Saves after a filtered load.**  Over a store that remembers loads: when the rows in memory come
from a filtered load, whatever was called since and whether it failed, and the last load that read the
store to its end was a filtered one, a save is refused, and leaves the store and all else as it is. -/
theorem save_refused [RemembersLoads σ] {e : Enforcer σ} (h : e.FilteredSince true) :
    e.save = (.error .filteredSave, e) := by
  unfold save
  rw [if_pos h.isFiltered_eq]

/-- A part of which a row came in later is not saved. -/
theorem save_refused_linking : ∃ e : Enforcer MemoryStore,
    e.FilteredSince true ∧ e.model.lines = [["g", "b", "a"]] ∧
      e.store.lines = [["g", "a", "b"], ["g", "b", "a"]] ∧ e.save = (.error .filteredSave, e) :=
  ⟨_, filteredSince_linking, rfl, rfl, save_refused filteredSince_linking⟩

/-- That the rows come from a filtered load is not enough: after a full load whose links are refused a save
goes through, and the line that the filtered load left out is lost. -/
theorem not_always_save_refused : ¬ ∀ (e : Enforcer MemoryStore) (filtered : Bool),
    e.FilteredSince filtered → e.save.1 = .error .filteredSave ∧ e.save.2.store.lines = e.store.lines := by
  intro hall
  obtain ⟨-, hlines⟩ := hall _ _ filteredSince_refused
  exact absurd hlines (by decide)

end Enforcer

end AccessControl
