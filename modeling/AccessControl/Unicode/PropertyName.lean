import AccessControl.Unicode.Age
import AccessControl.Unicode.Boundary
import AccessControl.Unicode.Script
/-!
# Naming properties

A set of characters can be asked for by the name of a property, or by a property and one of its
values.  Names are taken loosely: case, blanks, hyphens, low lines and a leading `is` do not count,
nor do characters outside ASCII.

    Lu   uppercase_letter   Is-Greek   sc=Grek   scx=Greek   age=6.0   wb=ALetter
-/

namespace AccessControl.Unicode

/-- Whether a name starts with `is`. -/
def startsWithIs : List Char → Bool
  | a :: b :: _ => (a == 'i' || a == 'I') && (b == 's' || b == 'S')
  | _ => false

/-- A name as the tables have it.  `isc` keeps its `is`: it names a property that is no set. -/
def looseName (name : List Char) : String :=
  let named := startsWithIs name
  let kept := (if named then name.drop 2 else name).filter fun c =>
    c != ' ' && c != '_' && c != '-' && decide (c.toNat < 128)
  let loose := String.ofList (kept.map Char.toLower)
  if named && loose == "c" then "isc" else loose

/-- The characters of a general category or of a group of them; none are named by `cs`, whose code
points are no characters. -/
def generalCategory? (name : String) : Option CharSet :=
  match name with
  | "any" => some .all
  | "assigned" => some Category.cn.set.compl
  | "ascii" => some (.range '\x00' '\x7f')
  | _ => (Category.named? name).map Category.sets

def script? (name : String) : Option CharSet := (Script.named? name).map Script.ownSet

/-- How a property is asked for. -/
inductive PropertyQuery where
  | named (name : List Char)
  | valued (property value : List Char)
  deriving Repr, DecidableEq

namespace PropertyQuery

/-- The characters asked for.  A name alone is that of a property, a category or a script. -/
def set? : PropertyQuery → Option CharSet
  | .named name =>
    let name := looseName name
    match Property.named? name with
    | some p => some p.set
    | none =>
      match generalCategory? name with
      | some s => some s
      | none => script? name
  | .valued property value =>
    let value := looseName value
    match looseName property with
    | "gc" | "generalcategory" => generalCategory? value
    | "sc" | "script" => script? value
    | "scx" | "scriptextensions" => (Script.named? value).map Script.usedSet
    | "age" => assignedBy? value
    | "gcb" | "graphemeclusterbreak" => characterClasses.named? value
    | "wb" | "wordbreak" => wordClasses.named? value
    | "sb" | "sentencebreak" => sentenceClasses.named? value
    | _ => none

end PropertyQuery

end AccessControl.Unicode
