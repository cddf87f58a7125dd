import AccessControl.Model.Definition
import AccessControl.Model.Order
import Mathlib.Data.List.Perm.Basic
/-!
# The index of a definition

The index of a definition is right when it holds every row as often as it occurs and nothing else.
`Tidy` says this together with the number of fields.  Every change of rows keeps a definition tidy, and
is told by what it does to the rows up to their order.

    d.Tidy → (d.contains row ↔ row ∈ d.rows)                           (`Tidy.contains_iff`)
    (d.insert row).rows ~ row :: d.rows                                (`rows_insert`)
    (d.replace old new).rows ~ new :: d.rows.erase old                 (`rows_replace`)
-/

namespace AccessControl

namespace Definition

/-! ## Counting rows -/

/-- How an index says that a row occurs a number of times. -/
def ofCount (n : Nat) : Option Nat := if n = 0 then none else some n

/-- The index that belongs to some rows. -/
def Counts (counts : Std.HashMap Row Nat) (rows : List Row) : Prop :=
  ∀ row, counts[row]? = ofCount (rows.count row)

theorem counts_nil : Counts ∅ [] := by
  intro row
  simp [ofCount]

theorem Counts.perm {counts : Std.HashMap Row Nat} {rows others : List Row} (h : Counts counts rows)
    (hp : rows.Perm others) : Counts counts others := by
  intro row
  rw [h row, hp.count_eq]

theorem Counts.countUp {counts : Std.HashMap Row Nat} {rows : List Row} (h : Counts counts rows)
    (row : Row) : Counts (countUp counts row) (row :: rows) := by
  have hrow : counts.getD row 0 = rows.count row := by
    rw [Std.HashMap.getD_eq_getD_getElem?, h row, ofCount]
    split <;> simp_all
  intro other
  rw [Definition.countUp, Std.HashMap.getElem?_insert, hrow]
  by_cases heq : row = other
  · subst heq
    simp [ofCount]
  · simp [heq, h other]

theorem Counts.countDown {counts : Std.HashMap Row Nat} {rows : List Row} {row : Row}
    (h : Counts counts (row :: rows)) : Counts (countDown counts row) rows := by
  have hrow : counts[row]? = some (rows.count row + 1) := by
    rw [h row, List.count_cons_self, ofCount, if_neg (Nat.succ_ne_zero _)]
  intro other
  rw [Definition.countDown, hrow]
  by_cases heq : row = other
  · subst heq
    rcases Nat.eq_zero_or_pos (rows.count row) with hz | hpos
    · simp [hz, ofCount]
    · simp [ofCount, Nat.ne_of_gt hpos]
  · have hother := h other
    rw [List.count_cons_of_ne heq] at hother
    dsimp only
    split
    · rw [Std.HashMap.getElem?_erase]
      simp [heq, hother]
    · rw [Std.HashMap.getElem?_insert]
      simp [heq, hother]

theorem Counts.countDownAll {counts : Std.HashMap Row Nat} {removed rows : List Row}
    (h : Counts counts (removed ++ rows)) : Counts (removed.foldl Definition.countDown counts) rows := by
  induction removed generalizing counts with
  | nil => exact h
  | cons row rest ih => exact ih h.countDown

theorem Counts.erase {counts : Std.HashMap Row Nat} {rows : List Row} (h : Counts counts rows)
    (row : Row) : Counts (counts.erase row) (rows.filter fun r => r != row) := by
  intro other
  rw [Std.HashMap.getElem?_erase]
  by_cases heq : row = other
  · subst heq
    have hnone : (rows.filter fun r => r != row).count row = 0 :=
      List.count_eq_zero.2 (by simp)
    simp [hnone, ofCount]
  · rw [List.count_filter (by simpa using Ne.symm heq)]
    simp [heq, h other]

theorem Counts.contains_iff {counts : Std.HashMap Row Nat} {rows : List Row} (h : Counts counts rows)
    (row : Row) : counts.contains row = true ↔ row ∈ rows := by
  rw [Std.HashMap.contains_eq_isSome_getElem?, h row, ofCount, ← List.count_pos_iff]
  split
  · next hz => simp [hz]
  · next hz => exact ⟨fun _ => Nat.pos_of_ne_zero hz, fun _ => rfl⟩

/-! ## Rows after a change -/

theorem swapFirst_perm {old new : Row} {rows : List Row} (h : old ∈ rows) :
    (swapFirst old new rows).Perm (new :: rows.erase old) := by
  induction rows with
  | nil => simp at h
  | cons r rest ih =>
    unfold swapFirst
    split
    · next heq => simp [heq]
    · next hne =>
      have hmem : old ∈ rest := by
        rcases List.mem_cons.1 h with heq | hmem
        · exact absurd heq.symm hne
        · exact hmem
      rw [List.erase_cons_tail (by simpa using hne)]
      exact ((ih hmem).cons r).trans (List.Perm.swap new r _)

theorem insertByPriority_perm (index : Nat) (row : Row) (rows : List Row) :
    (insertByPriority index row rows).Perm (row :: rows) := by
  unfold insertByPriority
  refine List.perm_middle.trans (List.Perm.cons row ?_)
  rw [List.take_append_drop]

theorem place_perm (priority : Option Nat) (row : Row) (rows : List Row) :
    (place priority row rows).Perm (row :: rows) := by
  cases priority with
  | none => exact List.perm_append_singleton row rows
  | some index => exact insertByPriority_perm index row rows

theorem rows_insert (d : Definition) (row : Row) : (d.insert row).rows.Perm (row :: d.rows) :=
  place_perm d.priority row d.rows

theorem rows_replace {d : Definition} {old : Row} (h : old ∈ d.rows) (new : Row) :
    (d.replace old new).rows.Perm (new :: d.rows.erase old) := by
  unfold replace
  rw [if_pos h]
  dsimp only
  split
  · split
    · exact swapFirst_perm h
    · exact insertByPriority_perm _ _ _
  · exact swapFirst_perm h

theorem rows_eraseWhere (d : Definition) (test : Row → Bool) :
    (d.eraseWhere test).1.rows = d.rows.filter fun row => !test row := rfl

/-- Sorting by a key neither adds nor drops rows. -/
theorem sortByKey_perm {α : Type} (rows : List (Int × α)) : (sortByKey rows).Perm (rows.map (·.2)) :=
  (List.mergeSort_perm rows _).map _

theorem rows_sortByPriority (d : Definition) : d.sortByPriority.rows.Perm d.rows := by
  unfold sortByPriority
  split
  · refine (sortByKey_perm _).trans ?_
    simp [Function.comp_def]
  · exact List.Perm.refl _

end Definition

theorem Hierarchy.rows_withLevels (h : Hierarchy) (subject : Row → String) (known : Table Nat)
    (rows : List Row) : (h.withLevels subject known rows).1.map (·.2) = rows := by
  induction rows generalizing known with
  | nil => rfl
  | cons row rest ih => simp [withLevels, ih]

theorem Definition.rows_sortBySubject (d : Definition) (h : Hierarchy) (known : Table Nat) :
    (d.sortBySubject h known).1.rows.Perm d.rows := by
  unfold sortBySubject
  split
  · exact List.Perm.refl _
  · refine (sortByKey_perm _).trans ?_
    rw [List.map_map]
    exact List.Perm.of_eq (h.rows_withLevels d.subject known d.rows)

/-! ## What changes of rows leave alone -/

namespace Definition

/-- A definition without its rows. -/
def bare (d : Definition) : Definition := { d with rows := [], counts := ∅ }

theorem key_eq {d k : Definition} (h : d.bare = k.bare) : d.key = k.key := by
  show d.bare.key = k.bare.key
  rw [h]

theorem value_eq {d k : Definition} (h : d.bare = k.bare) : d.value = k.value := by
  show d.bare.value = k.bare.value
  rw [h]

theorem fields_eq {d k : Definition} (h : d.bare = k.bare) : d.fields = k.fields := by
  show d.bare.fields = k.bare.fields
  rw [h]

@[simp] theorem bare_insert (d : Definition) (row : Row) : (d.insert row).bare = d.bare := rfl

@[simp] theorem bare_insertAll (d : Definition) (rows : List Row) :
    (d.insertAll rows).bare = d.bare := by
  induction rows generalizing d with
  | nil => rfl
  | cons row rest ih => exact ih (d.insert row)

@[simp] theorem bare_erase (d : Definition) (row : Row) : (d.erase row).bare = d.bare := by
  unfold erase
  split <;> rfl

@[simp] theorem bare_eraseAll (d : Definition) (rows : List Row) :
    (d.eraseAll rows).bare = d.bare := by
  induction rows generalizing d with
  | nil => rfl
  | cons row rest ih => exact (ih (d.erase row)).trans (bare_erase d row)

@[simp] theorem bare_replace (d : Definition) (old new : Row) :
    (d.replace old new).bare = d.bare := by
  unfold replace
  split
  · dsimp only
    split
    · split <;> rfl
    · rfl
  · rfl

@[simp] theorem bare_eraseWhere (d : Definition) (test : Row → Bool) :
    (d.eraseWhere test).1.bare = d.bare := rfl

@[simp] theorem bare_clear (d : Definition) : d.clear.bare = d.bare := rfl

@[simp] theorem bare_sortByPriority (d : Definition) : d.sortByPriority.bare = d.bare := by
  unfold sortByPriority
  split <;> rfl

@[simp] theorem bare_sortBySubject (d : Definition) (h : Hierarchy) (known : Table Nat) :
    (d.sortBySubject h known).1.bare = d.bare := by
  unfold sortBySubject
  split <;> rfl

/-! ## Tidy definitions -/

/-- The index is that of the rows, and every row has a value for every field. -/
structure Tidy (d : Definition) : Prop where
  counts : Counts d.counts d.rows
  arity : ∀ row ∈ d.rows, row.length = d.fields.length

theorem Tidy.contains_iff {d : Definition} (h : d.Tidy) (row : Row) :
    d.contains row = true ↔ row ∈ d.rows := h.counts.contains_iff row

theorem Tidy.contains_eq_false_iff {d : Definition} (h : d.Tidy) (row : Row) :
    d.contains row = false ↔ row ∉ d.rows := by
  rw [← h.contains_iff row, Bool.not_eq_true]

theorem tidy_make (sec key value : String) : (make sec key value).Tidy :=
  ⟨counts_nil, by simp [make]⟩

theorem tidy_clear (d : Definition) : d.clear.Tidy := ⟨counts_nil, by simp [clear]⟩

theorem Tidy.insert {d : Definition} (h : d.Tidy) {row : Row} (hrow : row.length = d.fields.length) :
    (d.insert row).Tidy where
  counts := (h.counts.countUp row).perm (rows_insert d row).symm
  arity r hr := by
    rcases List.mem_cons.1 ((rows_insert d row).mem_iff.1 hr) with rfl | hr
    · exact hrow
    · exact h.arity r hr

theorem Tidy.insertAll {d : Definition} (h : d.Tidy) {rows : List Row}
    (hrows : ∀ row ∈ rows, row.length = d.fields.length) : (d.insertAll rows).Tidy := by
  induction rows generalizing d with
  | nil => exact h
  | cons row rest ih =>
    exact ih (h.insert (hrows row List.mem_cons_self))
      (fun r hr => hrows r (List.mem_cons_of_mem _ hr))

/-- Dropping a row drops all its copies, whether there are any or not. -/
theorem Tidy.rows_erase {d : Definition} (h : d.Tidy) (row : Row) :
    (d.erase row).rows = d.rows.filter fun r => r != row := by
  unfold Definition.erase
  split
  · rfl
  · next hnot =>
    rw [h.contains_iff] at hnot
    refine (List.filter_eq_self.2 fun r hr => ?_).symm
    simp only [bne_iff_ne, ne_eq]
    rintro rfl
    exact hnot hr

theorem Tidy.erase {d : Definition} (h : d.Tidy) (row : Row) : (d.erase row).Tidy := by
  unfold Definition.erase
  split
  · exact ⟨h.counts.erase row, fun r hr => h.arity r (List.mem_of_mem_filter hr)⟩
  · exact h

theorem Tidy.eraseAll {d : Definition} (h : d.Tidy) (rows : List Row) : (d.eraseAll rows).Tidy := by
  induction rows generalizing d with
  | nil => exact h
  | cons row rest ih => exact ih (h.erase row)

theorem Tidy.replace {d : Definition} (h : d.Tidy) (old : Row) {new : Row}
    (hnew : new.length = d.fields.length) : (d.replace old new).Tidy := by
  by_cases hold : old ∈ d.rows
  · have hperm := rows_replace hold new
    have hfields : (d.replace old new).fields = d.fields := fields_eq (bare_replace d old new)
    have hcounts : (d.replace old new).counts = countUp (countDown d.counts old) new := by
      unfold Definition.replace
      rw [if_pos hold]
      dsimp only
      split
      · split <;> rfl
      · rfl
    refine ⟨?_, fun r hr => ?_⟩
    · rw [hcounts]
      exact ((h.counts.perm (List.perm_cons_erase hold)).countDown.countUp new).perm hperm.symm
    · rw [hfields]
      rcases List.mem_cons.1 (hperm.mem_iff.1 hr) with rfl | hr
      · exact hnew
      · exact h.arity r (List.mem_of_mem_erase hr)
  · unfold Definition.replace
    rwa [if_neg hold]

theorem Tidy.eraseWhere {d : Definition} (h : d.Tidy) (test : Row → Bool) :
    (d.eraseWhere test).1.Tidy where
  counts := (h.counts.perm (List.filter_append_perm test d.rows).symm).countDownAll
  arity r hr := h.arity r (List.mem_of_mem_filter hr)

theorem Tidy.sortByPriority {d : Definition} (h : d.Tidy) : d.sortByPriority.Tidy := by
  have hperm := rows_sortByPriority d
  unfold Definition.sortByPriority at hperm ⊢
  split
  · next index heq =>
    rw [heq] at hperm
    exact ⟨h.counts.perm hperm.symm, fun r hr => h.arity r (hperm.mem_iff.1 hr)⟩
  · exact h

theorem Tidy.sortBySubject {d : Definition} (h : d.Tidy) (links : Hierarchy) (known : Table Nat) :
    (d.sortBySubject links known).1.Tidy := by
  have hperm := rows_sortBySubject d links known
  unfold Definition.sortBySubject at hperm ⊢
  split
  · exact h
  · next hlen =>
    rw [if_neg hlen] at hperm
    exact ⟨h.counts.perm hperm.symm, fun r hr => h.arity r (hperm.mem_iff.1 hr)⟩

end Definition

end AccessControl
