import AccessControl.Store.File
import AccessControl.Store.Memory
import AccessControl.Store.Sum
/-!
# What stores promise

The lines of a store are changed by the operations that `StoreOp` lists.  A store may lack one or fail,
and then nothing is known about how much of the change it did, unless it says so.  Stores in memory and
in files leave what they hold as it was, and remember which kind of load was the last to read them to the
end.

    PolicyStore.CleanFailures MemoryStore.lines                        (`MemoryStore.cleanFailures`)
    PolicyStore.CleanFailures FileStore.file                           (`FileStore.cleanFailures`)
    loads are remembered in memory, in files, and in one of the two    (instances of `RemembersLoads`)
    so are filtered readings the accepted lines of full ones           (instances of `FiltersReads`)
-/

namespace AccessControl

variable {σ τ α β : Type}

/-! ## Operations on lines -/

/-- A change of the lines of a store. -/
inductive StoreOp where
  | clear
  | add (sec name : String) (row : Row)
  | addMany (sec name : String) (rows : List Row)
  | remove (sec name : String) (row : Row)
  | removeMany (sec name : String) (rows : List Row)
  | removeFiltered (sec name : String) (index : Nat) (values : List String)
  | update (sec name : String) (old new : Row)

/-- Whether an operation on a store succeeded, and the store after it. -/
def storeOutcome {γ : Type} (answer : Except StoreError γ × σ) : Except StoreError Unit × σ :=
  (answer.1.map fun _ => (), answer.2)

namespace PolicyStore

/-- Does what an operation says. -/
def change [PolicyStore σ] (s : σ) : StoreOp → Except StoreError Unit × σ
  | .clear => storeOutcome (clear s)
  | .add sec name row => storeOutcome (add s sec name row)
  | .addMany sec name rows => storeOutcome (addMany s sec name rows)
  | .remove sec name row => storeOutcome (remove s sec name row)
  | .removeMany sec name rows => storeOutcome (removeMany s sec name rows)
  | .removeFiltered sec name index values => storeOutcome (removeFiltered s sec name index values)
  | .update sec name old new => storeOutcome (update s sec name old new)

/-- One of two kinds of store does what its kind does. -/
theorem change_inl [PolicyStore σ] [PolicyStore τ] (s : σ) (op : StoreOp) :
    change (.inl s : σ ⊕ τ) op = inFirst (change s op) := by
  cases op <;> rfl

theorem change_inr [PolicyStore σ] [PolicyStore τ] (t : τ) (op : StoreOp) :
    change (.inr t : σ ⊕ τ) op = inSecond (change t op) := by
  cases op <;> rfl

/-- A function does what an operation says, up to its answer. -/
def Operation [PolicyStore σ] {γ : Type} (f : σ → Except StoreError γ × σ) : Prop :=
  ∃ op, ∀ s, change s op = storeOutcome (f s)

end PolicyStore

/-! ## Failures -/

/-- An operation that fails leaves what is seen of the store as it was. -/
def PolicyStore.CleanFailures [PolicyStore σ] (seen : σ → α) : Prop :=
  ∀ (op : StoreOp) (s t : σ) (err : StoreError), change s op = (.error err, t) → seen t = seen s

/-- Operations in memory do not fail. -/
theorem MemoryStore.cleanFailures : PolicyStore.CleanFailures MemoryStore.lines := by
  intro op s t err h
  cases op <;> exact absurd (Prod.mk.inj h).1 (by simp [Except.map])

theorem TextFile.write_error {f k : TextFile} {text : String} {err : IoFailure}
    (h : f.write text = (.error err, k)) : k = f := by
  unfold TextFile.write at h
  split at h
  · simp at h
  · exact (Prod.mk.inj h).2.symm

theorem FileStore.write_error {s t : FileStore} {lines : List Line} {err : StoreError}
    (h : s.write lines = (.error err, t)) : t = s := by
  unfold FileStore.write at h
  split at h
  · simp at h
  · next hfile =>
    rw [← (Prod.mk.inj h).2, TextFile.write_error hfile]

/-- A file that cannot be written stays as it is, and rows of it are not changed one by one. -/
theorem FileStore.cleanFailures : PolicyStore.CleanFailures FileStore.file := by
  intro op s t err h
  cases op with
  | clear =>
    have hclear : storeOutcome (s.write []) = (.error err, t) := h
    rcases hwrite : s.write [] with ⟨_ | _, k⟩
    · rw [hwrite] at hclear
      rw [← (Prod.mk.inj hclear).2]
      exact congrArg FileStore.file (FileStore.write_error hwrite)
    · rw [hwrite] at hclear
      simp [storeOutcome, Except.map] at hclear
  | _ => exact congrArg FileStore.file (Prod.mk.inj h).2.symm

theorem PolicyStore.CleanFailures.sum [PolicyStore σ] [PolicyStore τ] {seen : σ → α} {other : τ → β}
    (h : CleanFailures seen) (h' : CleanFailures other) : CleanFailures (Sum.map seen other) := by
  rintro op (s | s) t err hrun
  · rw [change_inl] at hrun
    obtain ⟨herr, rfl⟩ := Prod.mk.inj hrun
    exact congrArg Sum.inl (h op s _ err (Prod.ext herr rfl))
  · rw [change_inr] at hrun
    obtain ⟨herr, rfl⟩ := Prod.mk.inj hrun
    exact congrArg Sum.inr (h' op s _ err (Prod.ext herr rfl))

/-! ## Loads -/

/-- A reading that comes to its end, with lines that all fit. -/
theorem PolicyStore.finishLoad_ok [PolicyStore σ] {s : σ} {filtered : Bool} {reading : Reading}
    {m k : Model} (hlines : m.addLines reading.lines = (.ok (), k)) (hend : reading.failure = none) :
    finishLoad s filtered reading m = (.ok (), k, noteLoad s filtered) := by
  unfold finishLoad
  rw [hlines]
  dsimp only
  rw [hend]

open PolicyStore in
/-- A store that reads, for a filter, those of its lines that the filter accepts.  A load that is noted
leaves the lines. -/
class FiltersReads (σ : Type) [PolicyStore σ] : Prop where
  readFiltered (s : σ) (filter : Filter) : (read s).failure = none →
    PolicyStore.readFiltered s filter = { lines := (read s).lines.filter filter.accepts }
  read_noteLoad (s : σ) (filtered : Bool) : read (noteLoad s filtered) = read s

instance : FiltersReads MemoryStore where
  readFiltered _ _ _ := rfl
  read_noteLoad _ _ := rfl

instance : FiltersReads FileStore where
  readFiltered s filter h := by
    have h : (s.readWhere fun _ => true).failure = none := h
    show s.readWhere filter.accepts =
      { lines := (s.readWhere fun _ => true).lines.filter filter.accepts }
    unfold FileStore.readWhere at h ⊢
    cases hlines : s.lines with
    | ok lines => simp
    | error err => simp [hlines] at h
  read_noteLoad _ _ := rfl

instance [PolicyStore σ] [PolicyStore τ] [FiltersReads σ] [FiltersReads τ] : FiltersReads (σ ⊕ τ) where
  readFiltered
    | .inl s, filter => FiltersReads.readFiltered s filter
    | .inr t, filter => FiltersReads.readFiltered t filter
  read_noteLoad
    | .inl s, filtered => FiltersReads.read_noteLoad s filtered
    | .inr t, filtered => FiltersReads.read_noteLoad t filtered

open PolicyStore in
/-- A store that knows which kind of load was noted last, whatever is done to its lines. -/
class RemembersLoads (σ : Type) [PolicyStore σ] : Prop where
  noteLoad (s : σ) (filtered : Bool) : isFiltered (noteLoad s filtered) = filtered
  save (s : σ) (lines : List Line) : isFiltered (save s lines).2 = isFiltered s
  change (s : σ) (op : StoreOp) : isFiltered (change s op).2 = isFiltered s

theorem MemoryStore.filtered_addMany (s : MemoryStore) (lines : List Line) :
    (s.addMany lines).2.filtered = s.filtered := by
  unfold MemoryStore.addMany
  split <;> rfl

theorem MemoryStore.filtered_removeMany (s : MemoryStore) (lines : List Line) :
    (s.removeMany lines).2.filtered = s.filtered := by
  unfold MemoryStore.removeMany
  split <;> rfl

theorem MemoryStore.filtered_update (s : MemoryStore) (old new : Line) :
    (s.update old new).2.filtered = s.filtered := by
  unfold MemoryStore.update
  split
  · split <;> rfl
  · rfl

instance : RemembersLoads MemoryStore where
  noteLoad _ _ := rfl
  save _ _ := rfl
  change s op := by
    cases op with
    | addMany => exact s.filtered_addMany _
    | removeMany => exact s.filtered_removeMany _
    | update => exact s.filtered_update _ _
    | _ => rfl

theorem FileStore.filtered_write (s : FileStore) (lines : List Line) :
    (s.write lines).2.filtered = s.filtered := by
  unfold FileStore.write
  split <;> rfl

instance : RemembersLoads FileStore where
  noteLoad _ _ := rfl
  save s lines := s.filtered_write lines
  change s op := by
    cases op with
    | clear => exact s.filtered_write []
    | _ => rfl

instance [PolicyStore σ] [PolicyStore τ] [RemembersLoads σ] [RemembersLoads τ] :
    RemembersLoads (σ ⊕ τ) where
  noteLoad
    | .inl s, filtered => RemembersLoads.noteLoad s filtered
    | .inr t, filtered => RemembersLoads.noteLoad t filtered
  save
    | .inl s, lines => RemembersLoads.save s lines
    | .inr t, lines => RemembersLoads.save t lines
  change
    | .inl s, op => by
      rw [PolicyStore.change_inl]
      exact RemembersLoads.change s op
    | .inr t, op => by
      rw [PolicyStore.change_inr]
      exact RemembersLoads.change t op

end AccessControl
