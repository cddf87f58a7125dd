import AccessControl.Model.Basic
/-!
# The order of policy rows

Rows are sorted by their priority, or by the depth of their subject in the role hierarchy.  Both sorts
keep the order of rows with equal keys.

The level of a name is the number of links of the longest chain of role rows that starts at it.  Levels
are computed once per name and remembered in the order in which rows ask for them; a name met again
on its own chain counts as a top.

* `Model.sortByPriority`   lowest number first
* `Model.sortBySubject`    deepest subject first
-/

namespace AccessControl

/-- Sorts rows with the smaller keys first. -/
def sortByKey {α : Type} (rows : List (Int × α)) : List α :=
  (rows.mergeSort fun a b => decide (a.1 ≤ b.1)).map (·.2)

/-! ## Priorities -/

/-- Sorts the rows of a definition that has a priority field. -/
def Definition.sortByPriority (d : Definition) : Definition :=
  match d.fieldIndex (d.key ++ "_priority") with
  | some index => { d with rows := sortByKey (d.rows.map fun row => (rowPriority index row, row)) }
  | none => d

/-- Sorts the policy rows by their priorities. -/
def Model.sortByPriority (m : Model) : Model := m.modifyAll "p" Definition.sortByPriority

/-! ## Subjects -/

/-- The links of the hierarchy: each name with one it inherits. -/
abbrev Hierarchy := List (String × String)

namespace Hierarchy

/-- A name in a domain. -/
def key (domain : Option String) (name : String) : String :=
  match domain with
  | some d => d ++ "::" ++ name
  | none => name

/-- The link of a role row. -/
def link? : Row → Option (String × String)
  | child :: parent :: rest => some (key rest.head? child, key rest.head? parent)
  | _ => none

/-- The names a name inherits directly. -/
def parents (h : Hierarchy) (name : String) : List String :=
  h.filterMap fun e => if e.1 = name then some e.2 else none

mutual

/-- The level of a name and the levels known after that.  `visiting` is the chain below it.  A name
is visited once on a chain, so chains are not longer than the number of links, which bounds `fuel`. -/
def level (h : Hierarchy) : Nat → List String → Table Nat → String → Nat × Table Nat
  | 0, _, known, _ => (0, known)
  | fuel + 1, visiting, known, name =>
    match known.find name with
    | some n => (n, known)
    | none =>
      if name ∈ visiting then (0, known)
      else
        let (n, known) := levelAbove h fuel (name :: visiting) known (h.parents name)
        (n, known.put name n)

/-- One more than the greatest level of some names; none if there are no names. -/
def levelAbove (h : Hierarchy) : Nat → List String → Table Nat → List String → Nat × Table Nat
  | _, _, known, [] => (0, known)
  | fuel, visiting, known, name :: rest =>
    let (n, known) := level h fuel visiting known name
    let (others, known) := levelAbove h fuel visiting known rest
    (max (n + 1) others, known)

end

/-- The level of a name. -/
def levelOf (h : Hierarchy) (known : Table Nat) (name : String) : Nat × Table Nat :=
  h.level (h.length + 2) [] known name

/-- Puts its level in front of every row. -/
def withLevels (h : Hierarchy) (subject : Row → String) :
    Table Nat → List Row → List (Nat × Row) × Table Nat
  | known, [] => ([], known)
  | known, row :: rest =>
    let (n, known) := h.levelOf known (subject row)
    let (others, known) := withLevels h subject known rest
    ((n, row) :: others, known)

end Hierarchy

/-- The name by which the hierarchy knows the subject of a row. -/
def Definition.subject (d : Definition) (row : Row) : String :=
  let index := (d.fieldIndex (d.key ++ "_sub")).getD 0
  let domain := (d.fieldIndex (d.key ++ "_dom")).bind fun i => row[i]?
  Hierarchy.key domain (row[index]?.getD "")

/-- Sorts the rows of a definition, the deepest subjects first.  Fewer than two rows are in order
whatever their levels, which then are not asked for. -/
def Definition.sortBySubject (d : Definition) (h : Hierarchy) (known : Table Nat) :
    Definition × Table Nat :=
  if d.rows.length < 2 then (d, known)
  else
    let (levels, known) := h.withLevels d.subject known d.rows
    ({ d with rows := sortByKey (levels.map fun e => (-(e.1 : Int), e.2)) }, known)

/-- Sorts the rows of definitions one after the other. -/
def sortAllBySubject (h : Hierarchy) : Table Nat → Table Definition → Table Definition
  | _, [] => []
  | known, (name, d) :: rest =>
    let (d, known) := d.sortBySubject h known
    (name, d) :: sortAllBySubject h known rest

/-- The links of the role definition `g`. -/
def Model.hierarchy (m : Model) : Hierarchy := (m.rows "g" "g").filterMap Hierarchy.link?

/-- Sorts the policy rows by the depth of their subjects. -/
def Model.sortBySubject (m : Model) : Model :=
  ⟨m.sections.update "p" (sortAllBySubject m.hierarchy [])⟩

end AccessControl
