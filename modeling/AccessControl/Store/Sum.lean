import AccessControl.Store.Basic
/-!
# A store of one of two kinds

What holds one of two kinds of store is a store, so a program can change from one to the other.
-/

namespace AccessControl

variable {σ τ α : Type} [PolicyStore σ] [PolicyStore τ]

/-- An answer of the first kind of store. -/
def inFirst (r : Except StoreError α × σ) : Except StoreError α × (σ ⊕ τ) := (r.1, .inl r.2)

/-- An answer of the second kind of store. -/
def inSecond (r : Except StoreError α × τ) : Except StoreError α × (σ ⊕ τ) := (r.1, .inr r.2)

open PolicyStore in
instance : PolicyStore (σ ⊕ τ) where
  read
    | .inl s => read s
    | .inr t => read t
  readFiltered
    | .inl s => readFiltered s
    | .inr t => readFiltered t
  noteLoad
    | .inl s, filtered => .inl (noteLoad s filtered)
    | .inr t, filtered => .inr (noteLoad t filtered)
  isFiltered
    | .inl s => isFiltered s
    | .inr t => isFiltered t
  save
    | .inl s, lines => inFirst (save s lines)
    | .inr t, lines => inSecond (save t lines)
  clear
    | .inl s => inFirst (clear s)
    | .inr t => inSecond (clear t)
  add
    | .inl s, sec, name, row => inFirst (add s sec name row)
    | .inr t, sec, name, row => inSecond (add t sec name row)
  addMany
    | .inl s, sec, name, rows => inFirst (addMany s sec name rows)
    | .inr t, sec, name, rows => inSecond (addMany t sec name rows)
  remove
    | .inl s, sec, name, row => inFirst (remove s sec name row)
    | .inr t, sec, name, row => inSecond (remove t sec name row)
  removeMany
    | .inl s, sec, name, rows => inFirst (removeMany s sec name rows)
    | .inr t, sec, name, rows => inSecond (removeMany t sec name rows)
  removeFiltered
    | .inl s, sec, name, index, values => inFirst (removeFiltered s sec name index values)
    | .inr t, sec, name, index, values => inSecond (removeFiltered t sec name index values)
  update
    | .inl s, sec, name, old, new => inFirst (update s sec name old new)
    | .inr t, sec, name, old, new => inSecond (update t sec name old new)

end AccessControl
