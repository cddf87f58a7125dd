import AccessControl.Distinct
import AccessControl.Store.Basic
/-!
# Stores in memory

The lines are a set that keeps the order in which they were added; a store carries that they are distinct,
and every operation says why they stay so.
-/

namespace AccessControl

/-- A store in memory; its lines are distinct. -/
@[ext]
structure MemoryStore where
  lines : List Line := []
  filtered : Bool := false
  nodup : lines.Nodup := by first | exact List.nodup_nil | decide
  deriving Repr, DecidableEq

namespace MemoryStore

/-- A store of the lines given, each once. -/
def ofLines (lines : List Line) : MemoryStore := { lines := distinct lines, nodup := nodup_distinct lines }

def add (s : MemoryStore) (line : Line) : Bool × MemoryStore :=
  (!s.lines.contains line, { s with lines := addNew s.lines line, nodup := nodup_addNew s.nodup line })

/-- Adds all lines, or none if one is there already.  A line that comes twice is added once. -/
def addMany (s : MemoryStore) (lines : List Line) : Bool × MemoryStore :=
  if lines.any s.lines.contains then (false, s)
  else (true, { s with lines := lines.foldl addNew s.lines, nodup := nodup_foldl_addNew s.nodup lines })

def remove (s : MemoryStore) (line : Line) : Bool × MemoryStore :=
  (s.lines.contains line, { s with lines := s.lines.erase line, nodup := s.nodup.erase line })

/-- Drops all lines given, or none if one is not there. -/
def removeMany (s : MemoryStore) (lines : List Line) : Bool × MemoryStore :=
  if lines.all s.lines.contains then
    (true, { s with lines := lines.foldl List.erase s.lines, nodup := nodup_foldl_erase s.nodup lines })
  else (false, s)

/-- Whether a line is one of a definition with certain fields. -/
def lineMatches (name : String) (index : Nat) (values : List String) : Line → Bool
  | [] => false
  | head :: fields => head == name && rowMatches index values fields

/-- Drops the lines of a definition with certain fields.  No values drop all its lines. -/
def removeFiltered (s : MemoryStore) (name : String) (index : Nat) (values : List String) :
    Bool × MemoryStore :=
  let test := lineMatches name index values
  (s.lines.any test, { s with
    lines := s.lines.filter fun line => !test line
    nodup := s.nodup.sublist List.filter_sublist })

/-- Puts a line for another, in its place.  If the new line is there already, the old one goes. -/
def update (s : MemoryStore) (old new : Line) : Bool × MemoryStore :=
  if s.lines.contains old then
    if hnew : s.lines.contains new then
      (true, { s with lines := s.lines.erase old, nodup := s.nodup.erase old })
    else
      (true, { s with
        lines := s.lines.map fun line => if line = old then new else line
        nodup := nodup_map_replace s.nodup (mt List.contains_iff_mem.2 hnew) old })
  else (false, s)

instance : PolicyStore MemoryStore where
  read s := { lines := s.lines }
  readFiltered s filter := { lines := s.lines.filter filter.accepts }
  noteLoad s filtered := { s with filtered }
  isFiltered s := s.filtered
  save s lines := (.ok (), { s with lines := distinct lines, nodup := nodup_distinct lines })
  clear s := (.ok (), { s with lines := [], nodup := List.nodup_nil })
  add s _ name row :=
    let (answer, s) := s.add (name :: row)
    (.ok answer, s)
  addMany s _ name rows :=
    let (answer, s) := s.addMany (rows.map fun row => name :: row)
    (.ok answer, s)
  remove s _ name row :=
    let (answer, s) := s.remove (name :: row)
    (.ok answer, s)
  removeMany s _ name rows :=
    let (answer, s) := s.removeMany (rows.map fun row => name :: row)
    (.ok answer, s)
  removeFiltered s _ name index values :=
    let (answer, s) := s.removeFiltered name index values
    (.ok answer, s)
  update s _ name old new :=
    let (answer, s) := s.update (name :: old) (name :: new)
    (.ok answer, s)

end MemoryStore

end AccessControl
