import AccessControl.Json.Basic
import AccessControl.Number.Digits
import AccessControl.Value.Basic
/-!
# Values from JSON

Two readings.  `Value.ofJson` takes every JSON value: `null` is the empty string, so that an absent
attribute equals no real one.  `Value.ofJsonStrict?` refuses `null` wherever it stands.  In both an
integer that does not fit 64 signed bits becomes a float.
-/

namespace AccessControl.Value

/-- An integer, or the nearest float when it does not fit. -/
def ofInteger (n : Int) : Value :=
  if Number.fitsInt64 n then .int (Int64.ofInt n) else .float (Float.ofInt n)

/-- A map of the given entries; of a name given twice the last value stays. -/
def ofEntries (entries : List (String × Value)) : Value :=
  .map (entries.foldl (fun acc e => Json.insertMember e.1 e.2 acc) [])

mutual

/-- The value a JSON value stands for. -/
def ofJson : Json → Value
  | .null => .str ""
  | .bool b => .bool b
  | .int n => ofInteger n
  | .float x => .float x
  | .str s => .str s
  | .arr items => .list (ofItems items)
  | .obj members => ofEntries (ofMembers members)

def ofItems : List Json → List Value
  | [] => []
  | j :: rest => ofJson j :: ofItems rest

def ofMembers : List (String × Json) → List (String × Value)
  | [] => []
  | (name, j) :: rest => (name, ofJson j) :: ofMembers rest

end

mutual

/-- The value a JSON value without `null` stands for. -/
def ofJsonStrict? : Json → Option Value
  | .null => none
  | .bool b => some (.bool b)
  | .int n => some (ofInteger n)
  | .float x => some (.float x)
  | .str s => some (.str s)
  | .arr items => (ofItemsStrict? items).map .list
  | .obj members => (ofMembersStrict? members).map ofEntries

def ofItemsStrict? : List Json → Option (List Value)
  | [] => some []
  | j :: rest =>
    match ofJsonStrict? j, ofItemsStrict? rest with
    | some v, some vs => some (v :: vs)
    | _, _ => none

def ofMembersStrict? : List (String × Json) → Option (List (String × Value))
  | [] => some []
  | (name, j) :: rest =>
    match ofJsonStrict? j, ofMembersStrict? rest with
    | some v, some vs => some ((name, v) :: vs)
    | _, _ => none

end

end AccessControl.Value
