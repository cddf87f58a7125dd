import AccessControl.Proofs.Enforcer.InMemory
import AccessControl.Proofs.Enforcer.FilteredSaves
/-!
# Which accepted rows the store has

While changes are saved at once, a change of rows is told to the store before the model makes it.  A
store in memory takes a batch as a whole or not at all: it adds one of which it has no row, and drops one
of which it has all rows.  Its answer that it did nothing is not looked at.  So when rows in memory and
lines in the store went apart, a batch can be accepted of which the store took nothing: after a filtered
load, or after changes that were not saved at once.

    the store has all rows of an accepted batch ↔ it had all of them or none
    the store has no row of a dropped batch ↔ it had all of them or none
                                                                       (`stored_iff_uniform`)
    an accepted batch of which one row was stored already is not stored
                                                                       (`not_always_stored`)
-/

namespace AccessControl

namespace Enforcer

/-! ## Loads -/

/-- A load reads the lines and leaves them. -/
theorem lines_load (e : Enforcer MemoryStore) : e.load.2.store.lines = e.store.lines := by
  unfold load
  rw [store_finishLoad]
  unfold PolicyStore.load PolicyStore.finishLoad
  split
  · rfl
  · split <;> rfl

/-! ## Batches -/

/-- The store has all rows of a batch, or none. -/
def Uniform (e : Enforcer MemoryStore) (name : String) (rows : List Row) : Prop :=
  (∀ row ∈ rows, name :: row ∈ e.store.lines) ∨ ∀ row ∈ rows, name :: row ∉ e.store.lines

theorem uniform_single (e : Enforcer MemoryStore) (name : String) (row : Row) :
    e.Uniform name [row] := by
  unfold Uniform
  rw [List.forall_mem_singleton, List.forall_mem_singleton]
  exact Classical.em _

section

variable {e k : Enforcer MemoryStore} {sec name : String} {rows : List Row}
  (hsave : e.config.autoSave = true)

include hsave

theorem stored_addRows (h : e.addRows sec name rows = (.ok true, k)) :
    (∀ row ∈ rows, name :: row ∈ k.store.lines) ↔ e.Uniform name rows := by
  obtain ⟨d, l, s, hadded⟩ := addRows_true h
  rw [hadded.store_memory hsave]
  by_cases hnone : ∀ row ∈ rows, name :: row ∉ e.store.lines
  · refine ⟨fun _ => Or.inr hnone, fun _ row hrow => ?_⟩
    exact (mem_storeRows hnone _).2 (Or.inr (List.mem_map_of_mem hrow))
  · have hsome : ∃ row ∈ rows, name :: row ∈ e.store.lines := by
      push Not at hnone
      exact hnone
    rw [lines_storeRows_stored hsome, Uniform, or_iff_left hnone]

theorem stored_removeRows (h : e.removeRows sec name rows = (.ok true, k)) :
    (∀ row ∈ rows, name :: row ∉ k.store.lines) ↔ e.Uniform name rows := by
  obtain ⟨d, s, l, hremoved⟩ := removeRows_true h
  rw [hremoved.store_memory hsave]
  by_cases hall : ∀ row ∈ rows, name :: row ∈ e.store.lines
  · refine ⟨fun _ => Or.inl hall, fun _ row hrow hmem => ?_⟩
    exact ((mem_unstoreRows hall _).1 hmem).2 (List.mem_map_of_mem hrow)
  · have hmissing : ∃ row ∈ rows, name :: row ∉ e.store.lines := by
      push Not at hall
      exact hall
    rw [lines_unstoreRows_missing hmissing, Uniform, or_iff_right hall]

end

/-! ## One run -/

/-- Policy rows of one field, and the lines of the store. -/
def subjects (rows : List Row) (store : MemoryStore) : Enforcer MemoryStore where
  model := Model.modify (.build [.define "p" "p" "sub"]) "p" "p" (·.insertAll rows)
  store := store

/-- A store with one line. -/
def oneLine (filtered : Bool) : MemoryStore := { lines := [["p", "a"]], filtered }

theorem reachable_subjects : Reachable Made (fun _ _ => True) (subjects [["a"]] (oneLine false)) := by
  have h0 : Reachable Made (fun _ _ => True) (subjects [] {}) :=
    .start ⟨.build _, {}, {}, ⟨[.define "p" "p" "sub"], rfl⟩, rfl⟩
  have hstore : (subjects [] {}).persist (storeRows "p" "p" [["a"]]) =
      (.ok (), subjects [] (oneLine false)) := rfl
  have hadd := perform_addRows (h0.valid fun _ h => h) (Or.inl rfl) rfl rfl hstore (by decide) rfl
  have h1 := h0.step (.addRows "p" "p" [["a"]]) trivial
  rwa [hadd] at h1

/-- The row is in the store and not in memory. -/
theorem reachable_subjects_part : Reachable Made (fun _ _ => True) (subjects [] (oneLine true)) :=
  reachable_subjects.step (.loadFiltered { policy := ["c"] }) trivial

/-- One of the two rows in memory is in the store. -/
theorem reachable_subjects_more :
    Reachable Made (fun _ _ => True) (subjects [["a"], ["b"]] (oneLine false)) := by
  have h1 := reachable_subjects.step (.enableAutoSave false) trivial
  have hadd := perform_addRows (h1.valid fun _ h => h) (Or.inl rfl) rfl rfl
    (persist_unsaved rfl (storeRows "p" "p" [["b"]])) (by decide) rfl
  have h2 := h1.step (.addRows "p" "p" [["b"]]) trivial
  rw [hadd] at h2
  exact h2.step (.enableAutoSave true) trivial

/-- Rows that are new in memory are added, and no line is. -/
theorem addRows_subjects_part : ∃ k, (subjects [] (oneLine true)).addRows "p" "p" [["a"], ["b"]] =
    (.ok true, k) ∧ k.store = oneLine true := by
  have htidy := (reachable_subjects_part.valid fun _ h => h).model.tidy "p" "p" _ rfl
  exact ⟨_, addRows_unsorted (Or.inl rfl) rfl htidy (by decide) (by decide) (by decide) (by decide)
    rfl (l := subjects [] (oneLine true)) rfl (persist_storeRows rfl), rfl⟩

/-- Rows that are in memory are dropped, and no line is. -/
theorem removeRows_subjects_more : ∃ k,
    (subjects [["a"], ["b"]] (oneLine false)).removeRows "p" "p" [["a"], ["b"]] = (.ok true, k) ∧
      k.store = oneLine false := by
  have htidy := (reachable_subjects_more.valid fun _ h => h).model.tidy "p" "p" _ rfl
  have hold : [["a"], ["b"]] ⊆ (subjects [["a"], ["b"]] (oneLine false)).model.rows "p" "p" := by
    decide
  exact ⟨_, removeRows_eq (Or.inl rfl) rfl
    (fun row hrow => (htidy.contains_iff row).2 (hold hrow)) (by decide) (persist_unstoreRows rfl) rfl,
    rfl⟩

/-! ## Top theorem (proved from the lemmas above) -/

/-- **Accepted batches and the store.**  In every state over a store in memory, however rows and lines
went apart, while changes are saved at once: the store has all rows of a batch that was added exactly
when it had all of them or none before, and it has no row of a batch that was dropped exactly when it had
all of them or none.  Of a single row this always holds. -/
theorem stored_iff_uniform {e : Enforcer MemoryStore} (hsave : e.config.autoSave = true)
    (sec name : String) (rows : List Row) :
    (∀ k, e.addRows sec name rows = (.ok true, k) →
      ((∀ row ∈ rows, name :: row ∈ k.store.lines) ↔ e.Uniform name rows)) ∧
    (∀ k, e.removeRows sec name rows = (.ok true, k) →
      ((∀ row ∈ rows, name :: row ∉ k.store.lines) ↔ e.Uniform name rows)) ∧
    ∀ row, e.Uniform name [row] :=
  ⟨fun _ hadd => stored_addRows hsave hadd, fun _ hremove => stored_removeRows hsave hremove,
    e.uniform_single name⟩

/-- Two new rows are added and dropped again. -/
theorem stored_iff_uniform_subjects : ∃ e k l : Enforcer MemoryStore,
    Reachable Made (fun _ _ => True) e ∧ e.config.autoSave = true ∧
      e.addRows "p" "p" [["b"], ["c"]] = (.ok true, k) ∧
      (∀ row ∈ [["b"], ["c"]], "p" :: row ∈ k.store.lines) ∧
      k.removeRows "p" "p" [["b"], ["c"]] = (.ok true, l) ∧
      ∀ row ∈ [["b"], ["c"]], "p" :: row ∉ l.store.lines := by
  let e := subjects [["a"]] (oneLine false)
  let k := subjects [["a"], ["b"], ["c"]] { lines := [["p", "a"], ["p", "b"], ["p", "c"]] }
  have htidy := (reachable_subjects.valid fun _ h => h).model.tidy "p" "p" _ rfl
  have hadd : e.addRows "p" "p" [["b"], ["c"]] = (.ok true, k) :=
    addRows_unsorted (Or.inl rfl) rfl htidy (by decide) (by decide) (by decide) (by decide) rfl
      (l := e) rfl (persist_storeRows rfl)
  have hreach : Reachable Made (fun _ _ => True) k := by
    have hstep := reachable_subjects.step (.addRows "p" "p" [["b"], ["c"]]) trivial
    have hk : (e.perform (.addRows "p" "p" [["b"], ["c"]])).2 = k := congrArg Prod.snd hadd
    rwa [hk] at hstep
  have htidy := (hreach.valid fun _ h => h).model.tidy "p" "p" _ rfl
  have hold : [["b"], ["c"]] ⊆ k.model.rows "p" "p" := by decide
  have hremove : ∃ l, k.removeRows "p" "p" [["b"], ["c"]] = (.ok true, l) :=
    ⟨_, removeRows_eq (Or.inl rfl) rfl (fun row hrow => (htidy.contains_iff row).2 (hold hrow))
      (by decide) (persist_unstoreRows rfl) rfl⟩
  obtain ⟨l, hremove⟩ := hremove
  have hstored := (stored_iff_uniform (e := e) rfl "p" "p" [["b"], ["c"]]).1 k hadd
  have hdropped := (stored_iff_uniform (e := k) rfl "p" "p" [["b"], ["c"]]).2.1 l hremove
  exact ⟨e, k, l, reachable_subjects, rfl, hadd, hstored.2 (Or.inr (by decide)), hremove,
    hdropped.2 (Or.inl (by decide))⟩

/-- A batch of new rows of which the store has one already is accepted and not stored, and a batch of old
rows of which the store lacks one is dropped and still stored. -/
theorem not_always_stored :
    (¬ ∀ (e k : Enforcer MemoryStore) (sec name : String) (rows : List Row),
      Reachable Made (fun _ _ => True) e → e.config.autoSave = true →
        e.addRows sec name rows = (.ok true, k) → ∀ row ∈ rows, name :: row ∈ k.store.lines) ∧
    ¬ ∀ (e k : Enforcer MemoryStore) (sec name : String) (rows : List Row),
      Reachable Made (fun _ _ => True) e → e.config.autoSave = true →
        e.removeRows sec name rows = (.ok true, k) → ∀ row ∈ rows, name :: row ∉ k.store.lines := by
  constructor
  · intro hall
    obtain ⟨k, hadd, hstore⟩ := addRows_subjects_part
    have hb := hall _ k _ _ _ reachable_subjects_part rfl hadd ["b"] (by decide)
    rw [hstore] at hb
    exact absurd hb (by decide)
  · intro hall
    obtain ⟨k, hremove, hstore⟩ := removeRows_subjects_more
    have ha := hall _ k _ _ _ reachable_subjects_more rfl hremove ["a"] (by decide)
    rw [hstore] at ha
    exact absurd ha (by decide)

end Enforcer

end AccessControl
