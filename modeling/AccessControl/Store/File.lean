import AccessControl.Csv.Reader
import AccessControl.Csv.Writer
import AccessControl.Store.Basic
/-!
# Stores in files

A policy file has one line per record.  It is read and written as a whole; changes of single rows are
not supported.
-/

namespace AccessControl

/-- A file: its bytes if it exists, in a directory that may be missing. -/
structure TextFile where
  bytes : Option ByteArray := none
  directoryExists : Bool := true

namespace TextFile

/-- The text of a file. -/
def read (f : TextFile) : Except IoFailure String :=
  if f.directoryExists then
    match f.bytes with
    | none => .error .notFound
    | some bytes =>
      match String.fromUTF8? bytes with
      | some text => .ok text
      | none => .error .invalidData
  else .error .notFound

/-- Writes a text, creating the file if there is none. -/
def write (f : TextFile) (text : String) : Except IoFailure Unit × TextFile :=
  if f.directoryExists then (.ok (), { f with bytes := some text.toUTF8 })
  else (.error .notFound, f)

end TextFile

/-- The lines of policy records.  Records of empty fields are skipped; a record of one field is an
error. -/
def linesOfRecords : List Csv.Record → Except StoreError (List Line)
  | [] => .ok []
  | r :: rest =>
    if r.fields.all (·.isEmpty) then linesOfRecords rest
    else if r.fields.length < 2 then .error (.shortRecord r.line)
    else
      match linesOfRecords rest with
      | .ok lines => .ok (r.fields :: lines)
      | .error e => .error e

/-- A store in a file. -/
structure FileStore where
  file : TextFile := {}
  filtered : Bool := false

namespace FileStore

/-- The lines of the file. -/
def lines (s : FileStore) : Except StoreError (List Line) :=
  match s.file.read with
  | .ok text => linesOfRecords (Csv.records text)
  | .error e => .error (.io e)

/-- Writes the text of lines. -/
def write (s : FileStore) (lines : List Line) : Except StoreError Unit × FileStore :=
  match s.file.write (Csv.write lines) with
  | (.ok (), file) => (.ok (), { s with file })
  | (.error e, file) => (.error (.io e), { s with file })

/-- The part of the lines that satisfies a test. -/
def readWhere (s : FileStore) (test : Line → Bool) : Reading :=
  match s.lines with
  | .ok lines => { lines := lines.filter test }
  | .error e => { failure := some e }

instance : PolicyStore FileStore where
  read s := s.readWhere fun _ => true
  readFiltered s filter := s.readWhere filter.accepts
  noteLoad s filtered := { s with filtered }
  isFiltered s := s.filtered
  save := write
  clear s := s.write []

end FileStore

end AccessControl
