import AccessControl.Distinct
import AccessControl.Table
import Mathlib.Data.List.Nodup
/-!
# What the operations of a table do to look-ups

A table whose names are distinct is the same thing as its look-ups, and every operation says what it
does to them.

    (t.put k a).find l = if k = l then some a else t.find l            (`find_put`)
    (t.update k f).find l = if k = l then (t.find l).map f else …      (`find_update`)
    (t.put k a).keys = addNew t.keys k                                 (`keys_put`)
    (t.update k f).take n = (t.take n).update k f                      (`take_update`)
    k ∉ t.keys → (t.put k a).remove k = t                              (`remove_put`)
    t.keys.Nodup → (t.find k = some a ↔ (k, a) ∈ t)                    (`find_eq_some_iff`)
-/

namespace AccessControl

/-- A map that tells a member from the others can be taken before or after it is added. -/
theorem map_addNew {α β : Type} [DecidableEq α] [DecidableEq β] {f : α → β} {xs : List α} {x : α}
    (h : ∀ y ∈ xs, f y = f x → y = x) : (addNew xs x).map f = addNew (xs.map f) (f x) := by
  unfold addNew
  by_cases hx : x ∈ xs
  · rw [if_pos hx, if_pos (List.mem_map_of_mem hx)]
  · have hfx : f x ∉ xs.map f := by
      intro hmem
      obtain ⟨y, hy, heq⟩ := List.mem_map.1 hmem
      exact hx (h y hy heq ▸ hy)
    rw [if_neg hx, if_neg hfx, List.map_append, List.map_singleton]

theorem map_erase_of_mem {α β : Type} [DecidableEq α] [DecidableEq β] {f : α → β} {xs : List α} {x : α}
    (h : ∀ y ∈ xs, f y = f x → y = x) : (xs.erase x).map f = (xs.map f).erase (f x) := by
  induction xs with
  | nil => rfl
  | cons y rest ih =>
    rw [List.forall_mem_cons] at h
    by_cases hy : y = x
    · subst hy
      rw [List.erase_cons_head, List.map_cons, List.erase_cons_head]
    · rw [List.erase_cons_tail (by simpa using hy), List.map_cons, List.map_cons,
        List.erase_cons_tail (by simpa using mt h.1 hy), ih h.2]

/-- Members that are each there once are all distinct members. -/
theorem distinct_of_nodup {α : Type} [DecidableEq α] {xs : List α} (h : xs.Nodup) : distinct xs = xs := by
  have hunseen : ∀ seen : List α, (∀ x ∈ xs, x ∉ seen) → unseen seen xs = xs := by
    induction xs with
    | nil => exact fun _ _ => rfl
    | cons x rest ih =>
      intro seen hseen
      rw [List.forall_mem_cons] at hseen
      rw [List.nodup_cons] at h
      rw [unseen, if_neg hseen.1, ih h.2]
      intro y hy
      rw [List.mem_cons, not_or]
      exact ⟨fun heq => h.1 (heq ▸ hy), hseen.2 y hy⟩
  exact hunseen [] fun _ _ => List.not_mem_nil

namespace Table

variable {α : Type}

/-! ## Look-ups -/

theorem find_put (t : Table α) (k l : String) (a : α) :
    (t.put k a).find l = if k = l then some a else t.find l := by
  split
  · next h => rw [← h, find_put_self]
  · next h => exact find_put_of_ne t a h

theorem find_update (t : Table α) (k l : String) (f : α → α) :
    (t.update k f).find l = if k = l then (t.find l).map f else t.find l := by
  split
  · next h => rw [← h, find_update_self]
  · next h => exact find_update_of_ne t f h

theorem find_mapValues (t : Table α) (k : String) (f : α → α) :
    (t.mapValues f).find k = (t.find k).map f := by
  induction t with
  | nil => rfl
  | cons e rest ih =>
    obtain ⟨l, b⟩ := e
    simp only [mapValues, List.map_cons, find] at ih ⊢
    split <;> simp_all

theorem find_eq_none_iff (t : Table α) (k : String) : t.find k = none ↔ k ∉ t.keys := by
  induction t with
  | nil => simp [keys]
  | cons e rest ih =>
    obtain ⟨l, b⟩ := e
    by_cases h : l = k
    · simp [find, keys, h]
    · simp [find, keys, h, Ne.symm h] at ih ⊢
      exact ih

theorem contains_iff (t : Table α) (k : String) : t.contains k = true ↔ k ∈ t.keys := by
  rw [contains, Option.isSome_iff_ne_none, ne_eq, find_eq_none_iff, not_not]

theorem exists_find {t : Table α} {k : String} (h : k ∈ t.keys) : ∃ a, t.find k = some a :=
  Option.ne_none_iff_exists'.1 (mt (find_eq_none_iff t k).1 (not_not_intro h))

theorem mem_of_find {t : Table α} {k : String} {a : α} (h : t.find k = some a) : (k, a) ∈ t := by
  induction t with
  | nil => simp at h
  | cons e rest ih =>
    obtain ⟨l, b⟩ := e
    by_cases hl : l = k
    · simp only [find, if_pos hl, Option.some.injEq] at h
      simp [hl, h]
    · rw [find, if_neg hl] at h
      exact List.mem_cons_of_mem _ (ih h)

theorem find_eq_some_iff {t : Table α} (hn : t.keys.Nodup) (k : String) (a : α) :
    t.find k = some a ↔ (k, a) ∈ t := by
  refine ⟨mem_of_find, fun h => ?_⟩
  induction t with
  | nil => simp at h
  | cons e rest ih =>
    obtain ⟨l, b⟩ := e
    simp only [keys, List.map_cons, List.nodup_cons] at hn
    rcases List.mem_cons.1 h with heq | hmem
    · simp only [Prod.mk.injEq] at heq
      simp [find, heq.1, heq.2]
    · have hne : l ≠ k := by
        rintro rfl
        exact hn.1 (List.mem_map_of_mem hmem)
      rw [find, if_neg hne]
      exact ih hn.2 hmem

/-! ## Names -/

@[simp] theorem keys_update (t : Table α) (k : String) (f : α → α) : (t.update k f).keys = t.keys := by
  induction t with
  | nil => rfl
  | cons e rest ih =>
    obtain ⟨l, b⟩ := e
    by_cases h : l = k
    · simp [update, keys, h]
    · simpa [update, keys, h] using ih

@[simp] theorem keys_mapValues (t : Table α) (f : α → α) : (t.mapValues f).keys = t.keys := by
  simp [keys, mapValues]

theorem keys_put (t : Table α) (k : String) (a : α) : (t.put k a).keys = addNew t.keys k := by
  induction t with
  | nil => rfl
  | cons e rest ih =>
    obtain ⟨l, b⟩ := e
    by_cases h : l = k
    · simp [put, keys, addNew, h]
    · simp only [put, if_neg h, keys, List.map_cons] at ih ⊢
      rw [ih]
      unfold addNew
      by_cases hk : k ∈ List.map (·.1) rest
      · simp [hk]
      · simp [hk, Ne.symm h]

theorem nodup_keys_put {t : Table α} (h : t.keys.Nodup) (k : String) (a : α) :
    (t.put k a).keys.Nodup := by
  rw [keys_put]
  exact nodup_addNew h k

/-! ## Values -/

theorem mem_values (t : Table α) (a : α) : a ∈ t.values ↔ ∃ k, (k, a) ∈ t := by
  simp [values]

/-- A value that looks the same under a function can be put in the place of another. -/
theorem mapValues_put {t : Table α} {k : String} {a b : α} {f : α → α} (h : t.find k = some a)
    (heq : f b = f a) : (t.put k b).mapValues f = t.mapValues f := by
  induction t with
  | nil => simp at h
  | cons e rest ih =>
    obtain ⟨l, c⟩ := e
    by_cases hl : l = k
    · rw [find, if_pos hl, Option.some.injEq] at h
      simp [put, mapValues, hl, h, heq]
    · rw [find, if_neg hl] at h
      have hrest := ih h
      simp only [mapValues] at hrest
      simp [put, mapValues, hl, hrest]

/-! ## Changes that are taken back -/

/-- A new name goes to the end. -/
theorem put_of_not_mem {t : Table α} {k : String} (h : k ∉ t.keys) (a : α) :
    t.put k a = t ++ [(k, a)] := by
  induction t with
  | nil => rfl
  | cons e rest ih =>
    obtain ⟨l, b⟩ := e
    simp only [keys, List.map_cons, List.mem_cons, not_or] at h ih
    rw [put, if_neg (Ne.symm h.1), ih h.2, List.cons_append]

theorem remove_put {t : Table α} {k : String} (h : k ∉ t.keys) (a : α) : (t.put k a).remove k = t := by
  rw [put_of_not_mem h]
  induction t with
  | nil => simp [remove]
  | cons e rest ih =>
    obtain ⟨l, b⟩ := e
    simp only [keys, List.map_cons, List.mem_cons, not_or] at h ih
    rw [List.cons_append, remove, if_neg (Ne.symm h.1), ih h.2]

theorem put_put (t : Table α) (k : String) (a b : α) : (t.put k a).put k b = t.put k b := by
  induction t with
  | nil => simp [put]
  | cons e rest ih =>
    obtain ⟨l, c⟩ := e
    by_cases h : l = k <;> simp [put, h, ih]

/-- Putting what is there changes nothing. -/
theorem put_of_find {t : Table α} {k : String} {a : α} (h : t.find k = some a) : t.put k a = t := by
  induction t with
  | nil => simp at h
  | cons e rest ih =>
    obtain ⟨l, b⟩ := e
    by_cases hl : l = k
    · rw [find, if_pos hl, Option.some.injEq] at h
      rw [put, if_pos hl, h]
    · rw [find, if_neg hl] at h
      rw [put, if_neg hl, ih h]

/-- An update that leaves the value it meets changes nothing. -/
theorem update_of_find {t : Table α} {k : String} {f : α → α} (h : ∀ a, t.find k = some a → f a = a) :
    t.update k f = t := by
  induction t with
  | nil => rfl
  | cons e rest ih =>
    obtain ⟨l, b⟩ := e
    by_cases hl : l = k
    · rw [update, if_pos hl, h b (by rw [find, if_pos hl])]
    · rw [update, if_neg hl, ih fun a ha => h a (by rwa [find, if_neg hl])]

theorem update_update (t : Table α) (k : String) (f g : α → α) :
    (t.update k f).update k g = t.update k fun a => g (f a) := by
  induction t with
  | nil => rfl
  | cons e rest ih =>
    obtain ⟨l, b⟩ := e
    by_cases h : l = k <;> simp [update, h, ih]

theorem update_comm (t : Table α) {k l : String} (h : k ≠ l) (f g : α → α) :
    (t.update k f).update l g = (t.update l g).update k f := by
  induction t with
  | nil => rfl
  | cons e rest ih =>
    obtain ⟨m, b⟩ := e
    by_cases hk : m = k
    · subst hk
      simp [update, h]
    · by_cases hl : m = l
      · subst hl
        simp [update, hk]
      · simp [update, hk, hl, ih]

theorem take_update (t : Table α) (n : Nat) (k : String) (f : α → α) :
    (t.update k f).take n = update (t.take n) k f := by
  induction t generalizing n with
  | nil => simp [update]
  | cons e rest ih =>
    obtain ⟨l, b⟩ := e
    cases n with
    | zero => simp [update]
    | succ n => by_cases h : l = k <;> simp [update, h, ih]

/-- In a table with distinct names, the value at a place is the value of the name at that place. -/
theorem modify_eq_update {α : Type} {t : Table α} (hn : t.keys.Nodup) {i : Nat} {k : String} {b : α}
    (h : t[i]? = some (k, b)) (f : α → α) : List.modify t i (fun e => (e.1, f e.2)) = t.update k f := by
  induction t generalizing i with
  | nil => simp at h
  | cons e rest ih =>
    obtain ⟨l, c⟩ := e
    simp only [keys, List.map_cons, List.nodup_cons] at hn
    cases i with
    | zero =>
      simp only [List.getElem?_cons_zero, Option.some.injEq, Prod.mk.injEq] at h
      rw [update, if_pos h.1]
      rfl
    | succ i =>
      rw [List.getElem?_cons_succ] at h
      have hne : l ≠ k := by
        rintro rfl
        exact hn.1 (List.mem_map.2 ⟨_, List.mem_of_getElem? h, rfl⟩)
      rw [List.modify_succ_cons, update, if_neg hne, ih hn.2 h]

end Table

end AccessControl
