/-!
# Tables in insertion order

A table maps names to values and keeps the names in the order in which they were first put.  Putting
a name again replaces its value and keeps its place.

    (t.put k a).find k = some a                      (`Table.find_put_self`)
    (t.put k a).find l = t.find l   for l ≠ k        (`Table.find_put_of_ne`)
-/

namespace AccessControl

/-- A table; its names are distinct in every table made by the operations below. -/
abbrev Table (α : Type) := List (String × α)

namespace Table

variable {α : Type}

def find : Table α → String → Option α
  | [], _ => none
  | (l, b) :: rest, k => if l = k then some b else find rest k

def contains (t : Table α) (k : String) : Bool := (t.find k).isSome

def keys (t : Table α) : List String := t.map (·.1)

def values (t : Table α) : List α := t.map (·.2)

/-- Replaces the value of a name in its place, or adds the name at the end. -/
def put : Table α → String → α → Table α
  | [], k, a => [(k, a)]
  | (l, b) :: rest, k, a => if l = k then (l, a) :: rest else (l, b) :: put rest k a

/-- Changes the value of a name that is there. -/
def update : Table α → String → (α → α) → Table α
  | [], _, _ => []
  | (l, b) :: rest, k, f => if l = k then (l, f b) :: rest else (l, b) :: update rest k f

def remove : Table α → String → Table α
  | [], _ => []
  | (l, b) :: rest, k => if l = k then rest else (l, b) :: remove rest k

/-- Changes every value. -/
def mapValues (t : Table α) (f : α → α) : Table α := t.map fun e => (e.1, f e.2)

@[simp] theorem find_nil (k : String) : find ([] : Table α) k = none := rfl

@[simp] theorem find_put_self (t : Table α) (k : String) (a : α) : (t.put k a).find k = some a := by
  induction t with
  | nil => simp [put, find]
  | cons e rest ih =>
    obtain ⟨l, b⟩ := e
    by_cases h : l = k <;> simp [put, find, h, ih]

theorem find_put_of_ne (t : Table α) {k l : String} (a : α) (h : k ≠ l) :
    (t.put k a).find l = t.find l := by
  induction t with
  | nil => simp [put, find, h]
  | cons e rest ih =>
    obtain ⟨m, b⟩ := e
    by_cases hm : m = k
    · subst hm; simp [put, find, h]
    · simp only [put, find, if_neg hm, ih]

theorem find_update_self (t : Table α) (k : String) (f : α → α) :
    (t.update k f).find k = (t.find k).map f := by
  induction t with
  | nil => rfl
  | cons e rest ih =>
    obtain ⟨l, b⟩ := e
    by_cases h : l = k <;> simp [update, find, h, ih]

theorem find_update_of_ne (t : Table α) {k l : String} (f : α → α) (h : k ≠ l) :
    (t.update k f).find l = t.find l := by
  induction t with
  | nil => rfl
  | cons e rest ih =>
    obtain ⟨m, b⟩ := e
    by_cases hm : m = k
    · subst hm; simp [update, find, h]
    · simp only [update, find, if_neg hm, ih]

end Table

end AccessControl
