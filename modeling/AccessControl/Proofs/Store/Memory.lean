import AccessControl.Enforcer.Changes
import AccessControl.Proofs.Store.Answers
import AccessControl.Proofs.Table
import Mathlib.Data.List.Nodup
/-!
# The lines of a store in memory

A batch of new lines goes in only if none of them is there, and a batch of old ones goes out only if all of
them are there; else the store answers that it did nothing, which is no failure.  A single line is a batch of
one: there is nothing to do for a line that is there already, or not there.

    some row of the batch is stored → storeRows leaves the lines       (`lines_storeRows_stored`)
    some row of the batch is not → unstoreRows leaves the lines        (`lines_unstoreRows_missing`)
    line ∈ (s.update old new).2.lines ↔ (line ∈ s.lines ∨ line = new) ∧ line ≠ old
                                                                       (`MemoryStore.mem_update`)
-/

namespace AccessControl

theorem mem_foldl_addNew {α : Type} [DecidableEq α] (xs ys : List α) (x : α) :
    x ∈ ys.foldl addNew xs ↔ x ∈ xs ∨ x ∈ ys := by
  induction ys generalizing xs with
  | nil => simp
  | cons y rest ih => rw [List.foldl_cons, ih, mem_addNew, List.mem_cons, or_assoc]

namespace MemoryStore

/-! ## One line for another -/

/-- What is in a list once is not among what stands around it. -/
theorem not_mem_around {α : Type} {front back : List α} {x : α} (h : (front ++ x :: back).Nodup) :
    x ∉ front ∧ x ∉ back := by
  rw [List.nodup_middle, List.nodup_cons, List.mem_append, not_or] at h
  exact h.1

/-- The new line stands in the place of the old one, unless it is stored already. -/
theorem update_split {s : MemoryStore} {old : Line} (hold : old ∈ s.lines) (new : Line) :
    ∃ front back, s.lines = front ++ old :: back ∧
      (s.update old new).2.lines = front ++ (if new ∈ s.lines then [] else [new]) ++ back := by
  obtain ⟨front, back, hsplit⟩ := List.append_of_mem hold
  refine ⟨front, back, hsplit, ?_⟩
  have hothers := not_mem_around (hsplit ▸ s.nodup)
  unfold update
  rw [if_pos (List.contains_iff_mem.2 hold)]
  split
  · next hnew =>
    rw [if_pos (List.contains_iff_mem.1 hnew)]
    dsimp only
    rw [hsplit, List.erase_append_right _ hothers.1, List.erase_cons_head, List.append_nil]
  · next hnew =>
    have hkept : ∀ lines : List Line, old ∉ lines →
        (lines.map fun line => if line = old then new else line) = lines := by
      intro lines hlines
      refine (List.map_congr_left fun line hline => if_neg ?_).trans (List.map_id lines)
      rintro rfl
      exact hlines hline
    rw [if_neg (mt List.contains_iff_mem.2 hnew)]
    dsimp only
    rw [hsplit]
    simp [hkept front hothers.1, hkept back hothers.2]

/-- The new line is stored and the old one is not, also if both are the same line. -/
theorem mem_update {s : MemoryStore} {old : Line} (hold : old ∈ s.lines) (new line : Line) :
    line ∈ (s.update old new).2.lines ↔ (line ∈ s.lines ∨ line = new) ∧ line ≠ old := by
  obtain ⟨front, back, hsplit, hupdate⟩ := update_split hold new
  have hothers := not_mem_around (hsplit ▸ s.nodup)
  rw [hupdate]
  by_cases hnew : new ∈ s.lines
  · have hstored : line ∈ s.lines ∨ line = new ↔ line ∈ s.lines :=
      or_iff_left_of_imp fun heq => heq ▸ hnew
    rw [if_pos hnew, hstored, hsplit]
    grind
  · have hne : new ≠ old := fun heq => hnew (heq ▸ hold)
    rw [if_neg hnew, hsplit]
    grind

/-! ## Lines with certain fields -/

theorem lineMatches_cons (name : String) (index : Nat) (values : List String) (row : Row) :
    lineMatches name index values (name :: row) = rowMatches index values row := by
  simp [lineMatches]

theorem eq_cons_of_lineMatches {name : String} {index : Nat} {values : List String} {line : Line}
    (h : lineMatches name index values line = true) : ∃ row, line = name :: row := by
  match line, h with
  | head :: row, h =>
    rw [lineMatches, Bool.and_eq_true, beq_iff_eq] at h
    exact ⟨row, by rw [h.1]⟩

theorem mem_removeFiltered (s : MemoryStore) (name : String) (index : Nat) (values : List String)
    (line : Line) : line ∈ (s.removeFiltered name index values).2.lines ↔
      line ∈ s.lines ∧ ¬ lineMatches name index values line = true := by
  unfold removeFiltered
  dsimp only
  rw [List.mem_filter, Bool.not_eq_true', Bool.not_eq_true]

end MemoryStore

/-! ## Rows of a definition -/

namespace Enforcer

variable {sec name : String} {s : MemoryStore} {rows : List Row}

/-- A batch that overlaps with what is stored is not stored. -/
theorem lines_storeRows_stored (h : ∃ row ∈ rows, name :: row ∈ s.lines) :
    (storeRows sec name rows s).2.lines = s.lines := by
  obtain ⟨row, hrow, hstored⟩ := h
  match rows, hrow with
  | [r], hrow =>
    rw [List.mem_singleton] at hrow
    exact if_pos (hrow ▸ hstored)
  | r :: other :: rest, hrow =>
    have hany : ((r :: other :: rest).map (name :: ·)).any s.lines.contains = true :=
      List.any_eq_true.2 ⟨name :: row, List.mem_map_of_mem hrow, List.contains_iff_mem.2 hstored⟩
    show (s.addMany _).2.lines = s.lines
    rw [MemoryStore.addMany, if_pos hany]

/-- A batch of rows of which none is stored is stored. -/
theorem mem_storeRows (h : ∀ row ∈ rows, name :: row ∉ s.lines) (line : Line) :
    line ∈ (storeRows sec name rows s).2.lines ↔
      line ∈ s.lines ∨ line ∈ rows.map (name :: ·) := by
  match rows with
  | [] => exact mem_foldl_addNew s.lines [] line
  | [row] =>
    rw [List.map_singleton, List.mem_singleton]
    exact mem_addNew s.lines (name :: row) line
  | row :: other :: rest =>
    have hany : ¬ ((row :: other :: rest).map (name :: ·)).any s.lines.contains = true := by
      simpa using h
    show line ∈ (s.addMany _).2.lines ↔ _
    rw [MemoryStore.addMany, if_neg hany]
    exact mem_foldl_addNew s.lines _ line

/-- A batch of which a row is not stored is not dropped. -/
theorem lines_unstoreRows_missing (h : ∃ row ∈ rows, name :: row ∉ s.lines) :
    (unstoreRows sec name rows s).2.lines = s.lines := by
  obtain ⟨row, hrow, hmissing⟩ := h
  match rows, hrow with
  | [r], hrow =>
    rw [List.mem_singleton] at hrow
    exact List.erase_of_not_mem (hrow ▸ hmissing)
  | r :: other :: rest, hrow =>
    have hall : ¬ ((r :: other :: rest).map (name :: ·)).all s.lines.contains = true := fun hall =>
      hmissing (List.contains_iff_mem.1 (List.all_eq_true.1 hall _ (List.mem_map_of_mem hrow)))
    show (s.removeMany _).2.lines = s.lines
    rw [MemoryStore.removeMany, if_neg hall]

/-- A batch of rows that are all stored is dropped. -/
theorem mem_unstoreRows (h : ∀ row ∈ rows, name :: row ∈ s.lines) (line : Line) :
    line ∈ (unstoreRows sec name rows s).2.lines ↔
      line ∈ s.lines ∧ line ∉ rows.map (name :: ·) := by
  match rows with
  | [] => simp [unstoreRows, PolicyStore.removeMany, MemoryStore.removeMany]
  | [row] =>
    rw [List.map_singleton, List.mem_singleton, and_comm]
    exact s.nodup.mem_erase_iff
  | row :: other :: rest =>
    have hall : ((row :: other :: rest).map (name :: ·)).all s.lines.contains = true := by
      simpa using h
    show line ∈ (s.removeMany _).2.lines ↔ _
    rw [MemoryStore.removeMany, if_pos hall]
    dsimp only
    rw [← List.diff_eq_foldl]
    exact s.nodup.mem_sdiff_iff

end Enforcer

end AccessControl
