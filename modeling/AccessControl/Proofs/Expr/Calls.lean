import AccessControl.Expr.Basic
/-!
# Calls by their place

An expression in a tree has an address: the position of each part to go down to.  Addresses in
lexicographic order are the tree in visiting order, an expression before its parts and the parts from
left to right.  The list of the calls is in this order, so the first call that has a property is the
one with the least address.

    name ∈ e.calls ↔ ∃ path, e.CallAt path name                         (`mem_calls`)
    e.calls.find? p = some name ↔ name is called at the first place where p holds of the name
                                                                        (`find?_calls`)
-/

namespace AccessControl

namespace Expr

/-- The parts of an expression, from left to right: the base of an attribute, the operands, the needle
before the items, or the arguments. -/
def children : Expr → List Expr
  | .literal _ => []
  | .field _ => []
  | .attr base _ => [base]
  | .unary _ operand => [operand]
  | .binary _ left right => [left, right]
  | .isIn needle items => needle :: items
  | .call _ args => args

/-- The name an expression calls itself. -/
def called? : Expr → Option String
  | .call name _ => some name
  | _ => none

/-- The expression at an address. -/
def at? : List Nat → Expr → Option Expr
  | [], e => some e
  | i :: path, e => e.children[i]?.bind (at? path)

/-- A name is called at an address. -/
def CallAt (e : Expr) (path : List Nat) (name : String) : Prop :=
  ∃ args, e.at? path = some (.call name args)

theorem callAt_nil {e : Expr} {name : String} : e.CallAt [] name ↔ e.called? = some name := by
  unfold CallAt called? at?
  cases e <;> simp

theorem callAt_cons {e : Expr} {i : Nat} {path : List Nat} {name : String} :
    e.CallAt (i :: path) name ↔ ∃ child, e.children[i]? = some child ∧ child.CallAt path name := by
  simp only [CallAt, at?, Option.bind_eq_some_iff]
  constructor
  · rintro ⟨args, child, hchild, hargs⟩
    exact ⟨child, hchild, args, hargs⟩
  · rintro ⟨child, hchild, args, hargs⟩
    exact ⟨args, child, hchild, hargs⟩

/-! ## Induction over the parts -/

theorem sizeOf_lt_of_mem_children {e child : Expr} (h : child ∈ e.children) : sizeOf child < sizeOf e := by
  cases e with
  | literal => simp [children] at h
  | field => simp [children] at h
  | attr base name =>
    obtain rfl := List.mem_singleton.1 h
    simp +arith
  | unary op operand =>
    obtain rfl := List.mem_singleton.1 h
    simp +arith
  | binary op left right =>
    rcases List.mem_cons.1 h with rfl | hright
    · simp +arith
    · obtain rfl := List.mem_singleton.1 hright
      simp +arith
  | isIn needle items =>
    rcases List.mem_cons.1 h with rfl | hitem
    · simp +arith
    · have hitems : sizeOf child < sizeOf items := List.sizeOf_lt_of_mem hitem
      simp
      omega
  | call name args =>
    have hargs : sizeOf child < sizeOf args := List.sizeOf_lt_of_mem h
    simp
    omega

/-- What holds of an expression when it holds of its parts holds of all expressions. -/
theorem induction_on_children {motive : Expr → Prop}
    (step : ∀ e : Expr, (∀ child ∈ e.children, motive child) → motive e) (e : Expr) : motive e :=
  step e fun child _ => induction_on_children step child
  termination_by sizeOf e
  decreasing_by exact sizeOf_lt_of_mem_children ‹_›

/-! ## Calls in visiting order -/

theorem callsOf_eq (es : List Expr) : callsOf es = es.flatMap calls := by
  induction es with
  | nil => rfl
  | cons e rest ih => rw [callsOf, List.flatMap_cons, ih]

/-- The own call of an expression, before those of its parts. -/
theorem calls_eq (e : Expr) : e.calls = e.called?.toList ++ e.children.flatMap calls := by
  cases e <;> simp [calls, called?, children, callsOf_eq]

/-- The calls are the names called anywhere in the tree. -/
theorem mem_calls {e : Expr} {name : String} : name ∈ e.calls ↔ ∃ path, e.CallAt path name := by
  induction e using induction_on_children with
  | step e ih =>
    rw [calls_eq, List.mem_append, Option.mem_toList, List.mem_flatMap]
    constructor
    · rintro (hown | ⟨child, hchild, hname⟩)
      · exact ⟨[], callAt_nil.2 hown⟩
      · obtain ⟨path, hpath⟩ := (ih child hchild).1 hname
        obtain ⟨i, hi⟩ := List.mem_iff_getElem?.1 hchild
        exact ⟨i :: path, callAt_cons.2 ⟨child, hi, hpath⟩⟩
    · rintro ⟨path, hpath⟩
      cases path with
      | nil => exact Or.inl (callAt_nil.1 hpath)
      | cons i path =>
        obtain ⟨child, hi, hrest⟩ := callAt_cons.1 hpath
        have hchild := List.mem_of_getElem? hi
        exact Or.inr ⟨child, hchild, (ih child hchild).2 ⟨path, hrest⟩⟩

/-- The call at an address is the first that has a property. -/
structure FirstAt (P : String → Prop) (e : Expr) (path : List Nat) (name : String) : Prop where
  callAt : e.CallAt path name
  holds : P name
  first : ∀ earlier < path, ∀ other, e.CallAt earlier other → ¬ P other

theorem firstAt_nil {P : String → Prop} {e : Expr} {name : String} :
    FirstAt P e [] name ↔ e.called? = some name ∧ P name := by
  constructor
  · intro h
    exact ⟨callAt_nil.1 h.callAt, h.holds⟩
  · rintro ⟨hown, hp⟩
    exact ⟨callAt_nil.2 hown, hp, fun earlier hlt => absurd hlt (List.not_lt_nil earlier)⟩

/-- The first call is in a part when no call is before it: neither the own call of the expression, nor one
in a part further left. -/
theorem firstAt_cons {P : String → Prop} {e : Expr} {i : Nat} {path : List Nat} {name : String} :
    FirstAt P e (i :: path) name ↔ (∀ own, e.called? = some own → ¬ P own) ∧
      (∀ j < i, ∀ left, e.children[j]? = some left → ∀ other ∈ left.calls, ¬ P other) ∧
      ∃ child, e.children[i]? = some child ∧ FirstAt P child path name := by
  constructor
  · intro h
    obtain ⟨child, hi, hcall⟩ := callAt_cons.1 h.callAt
    refine ⟨?_, ?_, child, hi, hcall, h.holds, ?_⟩
    · intro own hown
      exact h.first [] (List.nil_lt_cons i path) own (callAt_nil.2 hown)
    · intro j hj left hleft other hother
      obtain ⟨inner, hinner⟩ := mem_calls.1 hother
      exact h.first (j :: inner) (List.cons_lt_cons_iff.2 (Or.inl hj)) other
        (callAt_cons.2 ⟨left, hleft, hinner⟩)
    · intro earlier hlt other hother
      exact h.first (i :: earlier) (List.cons_lt_cons_iff.2 (Or.inr ⟨rfl, hlt⟩)) other
        (callAt_cons.2 ⟨child, hi, hother⟩)
  · rintro ⟨hown, hleft, child, hi, hfirst⟩
    refine ⟨callAt_cons.2 ⟨child, hi, hfirst.callAt⟩, hfirst.holds, ?_⟩
    intro earlier hlt other hother
    cases earlier with
    | nil => exact hown other (callAt_nil.1 hother)
    | cons j inner =>
      obtain ⟨part, hj, hinner⟩ := callAt_cons.1 hother
      rcases List.cons_lt_cons_iff.1 hlt with hji | ⟨rfl, hbefore⟩
      · exact hleft j hji part hj other (mem_calls.2 ⟨inner, hinner⟩)
      · obtain rfl := Option.some.inj (hi.symm.trans hj)
        exact hfirst.first inner hbefore other hinner

section

variable {p : String → Bool}

/-- What is found first in the parts is found in one of them, and not left of it. -/
theorem find?_flatMap_calls {es : List Expr} {name : String} :
    (es.flatMap calls).find? p = some name ↔ ∃ (i : Nat) (child : Expr), es[i]? = some child ∧
      child.calls.find? p = some name ∧
      ∀ j < i, ∀ left : Expr, es[j]? = some left → left.calls.find? p = none := by
  rw [List.find?_flatMap, List.findSome?_eq_some_iff]
  constructor
  · rintro ⟨before, child, after, rfl, hchild, hbefore⟩
    refine ⟨before.length, child, ?_, hchild, ?_⟩
    · rw [List.getElem?_append_right (Nat.le_refl _), Nat.sub_self, List.getElem?_cons_zero]
    · intro j hj left hleft
      rw [List.getElem?_append_left hj] at hleft
      exact hbefore left (List.mem_of_getElem? hleft)
  · rintro ⟨i, child, hi, hchild, hleft⟩
    obtain ⟨hlt, hget⟩ := List.getElem?_eq_some_iff.1 hi
    refine ⟨es.take i, child, es.drop (i + 1), ?_, hchild, ?_⟩
    · rw [← hget, List.getElem_cons_drop, List.take_append_drop]
    · intro left hmem
      obtain ⟨j, hj⟩ := List.mem_iff_getElem?.1 hmem
      rw [List.getElem?_take] at hj
      split at hj
      · next hji => exact hleft j hji left hj
      · cases hj

/-- The first call of the list that has a property is the first in the tree. -/
theorem find?_calls {e : Expr} {name : String} :
    e.calls.find? p = some name ↔ ∃ path, FirstAt (p · = true) e path name := by
  induction e using induction_on_children generalizing name with
  | step e ih =>
    have hparts : (∃ i path, FirstAt (p · = true) e (i :: path) name) ↔
        (∀ own, e.called? = some own → ¬ p own = true) ∧
          (e.children.flatMap calls).find? p = some name := by
      simp only [find?_flatMap_calls, firstAt_cons, List.find?_eq_none]
      constructor
      · rintro ⟨i, path, hown, hleft, child, hi, hfirst⟩
        exact ⟨hown, i, child, hi, (ih child (List.mem_of_getElem? hi)).2 ⟨path, hfirst⟩, hleft⟩
      · rintro ⟨hown, i, child, hi, hfound, hleft⟩
        obtain ⟨path, hfirst⟩ := (ih child (List.mem_of_getElem? hi)).1 hfound
        exact ⟨i, path, hown, hleft, child, hi, hfirst⟩
    have hplaces : (∃ path, FirstAt (p · = true) e path name) ↔
        FirstAt (p · = true) e [] name ∨ ∃ i path, FirstAt (p · = true) e (i :: path) name := by
      constructor
      · rintro ⟨path, h⟩
        cases path with
        | nil => exact Or.inl h
        | cons i path => exact Or.inr ⟨i, path, h⟩
      · rintro (h | ⟨i, path, h⟩)
        · exact ⟨[], h⟩
        · exact ⟨i :: path, h⟩
    rw [hplaces, hparts, firstAt_nil, calls_eq, List.find?_append]
    -- an own call that has the property hides those of the parts, in the list as in the tree
    cases hown : e.called? with
    | none => simp
    | some own =>
      cases hp : p own with
      | false =>
        have hne : ¬ (own = name ∧ p name = true) := by
          rintro ⟨rfl, h⟩
          rw [hp] at h
          exact Bool.false_ne_true h
        simp [hp, hne]
      | true =>
        simp only [Option.toList_some, List.find?_cons, hp, Option.some_or, Option.some.injEq]
        constructor
        · rintro rfl
          exact Or.inl ⟨rfl, hp⟩
        · rintro (⟨rfl, -⟩ | ⟨hnot, -⟩)
          · rfl
          · exact absurd hp (hnot own rfl)

end

end Expr

end AccessControl
