/-!
# Lists without repetition

Lists that stand for sets and keep the order in which their members came up.
-/

namespace AccessControl

variable {α : Type} [DecidableEq α]

/-- Adds a member that is not there yet at the end. -/
def addNew (xs : List α) (x : α) : List α := if x ∈ xs then xs else xs ++ [x]

/-- The members that were not seen before, each once and at its first place. -/
def unseen (seen : List α) : List α → List α
  | [] => []
  | x :: rest => if x ∈ seen then unseen seen rest else x :: unseen (x :: seen) rest

/-- The members of a list, each once and at its first place. -/
def distinct (xs : List α) : List α := unseen [] xs

theorem mem_addNew (xs : List α) (x y : α) : y ∈ addNew xs x ↔ y ∈ xs ∨ y = x := by
  unfold addNew
  split <;> rename_i h
  · exact ⟨Or.inl, fun h' => h'.elim id fun h' => h' ▸ h⟩
  · simp

theorem mem_unseen (xs seen : List α) (x : α) : x ∈ unseen seen xs ↔ x ∈ xs ∧ x ∉ seen := by
  induction xs generalizing seen with
  | nil => simp [unseen]
  | cons y rest ih =>
    unfold unseen
    split <;> rename_i h
    · rw [ih]
      constructor
      · rintro ⟨h1, h2⟩; exact ⟨List.mem_cons_of_mem _ h1, h2⟩
      · rintro ⟨h1, h2⟩
        rcases List.mem_cons.1 h1 with rfl | h1
        · exact absurd h h2
        · exact ⟨h1, h2⟩
    · rw [List.mem_cons, ih, List.mem_cons, List.mem_cons, not_or]
      constructor
      · rintro (rfl | ⟨h1, h2, h3⟩)
        · exact ⟨Or.inl rfl, h⟩
        · exact ⟨Or.inr h1, h3⟩
      · rintro ⟨rfl | h1, h2⟩
        · exact Or.inl rfl
        · by_cases hxy : x = y
          · exact Or.inl hxy
          · exact Or.inr ⟨h1, hxy, h2⟩

/-- A list and its distinct members have the same members. -/
theorem mem_distinct (xs : List α) (x : α) : x ∈ distinct xs ↔ x ∈ xs := by
  simp [distinct, mem_unseen]

theorem nodup_unseen (xs seen : List α) : (unseen seen xs).Nodup := by
  induction xs generalizing seen with
  | nil => simp [unseen]
  | cons y rest ih =>
    unfold unseen
    split
    · exact ih seen
    · exact List.nodup_cons.2 ⟨by simp [mem_unseen], ih _⟩

theorem nodup_distinct (xs : List α) : (distinct xs).Nodup := nodup_unseen xs []

theorem nodup_addNew {xs : List α} (h : xs.Nodup) (x : α) : (addNew xs x).Nodup := by
  unfold addNew
  split
  · exact h
  · next hx => exact List.nodup_append.2 ⟨h, by simp, by rintro a ha _ hb rfl; simp_all⟩

theorem nodup_foldl_addNew {xs : List α} (h : xs.Nodup) (ys : List α) : (ys.foldl addNew xs).Nodup := by
  induction ys generalizing xs with
  | nil => exact h
  | cons y rest ih => exact ih (nodup_addNew h y)

theorem nodup_foldl_erase {β : Type} [BEq β] [LawfulBEq β] {xs : List β} (h : xs.Nodup) (ys : List β) :
    (ys.foldl List.erase xs).Nodup := by
  induction ys generalizing xs with
  | nil => exact h
  | cons y rest ih => exact ih (h.erase y)

/-- A member that comes for another was not there, so it is there once. -/
theorem nodup_map_replace {xs : List α} (h : xs.Nodup) {new : α} (hnew : new ∉ xs) (old : α) :
    (xs.map fun x => if x = old then new else x).Nodup := by
  refine List.pairwise_map.2 (h.imp_of_mem fun {a b} ha hb hne heq => ?_)
  split at heq <;> split at heq
  · next haold hbold => exact hne (haold.trans hbold.symm)
  · exact hnew (heq ▸ hb)
  · exact hnew (heq ▸ ha)
  · exact hne heq

end AccessControl
