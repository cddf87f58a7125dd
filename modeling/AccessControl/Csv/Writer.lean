/-!
# Writing comma-separated records

Fields are quoted where reading would otherwise take them apart.  A record of one empty field is a
pair of quotes, since an empty line is no record.

Records are written as csv 1.3 writes them, on csv-core 0.1, when it quotes only where it has to and records may
have any length.
-/

namespace AccessControl.Csv

/-- Whether a field has to be quoted. -/
def needsQuotes (field : List Char) : Bool :=
  field.any fun c => c == ',' || c == '"' || c == '\r' || c == '\n'

/-- A field between quotes, the quotes in it doubled. -/
def quoted (field : List Char) : List Char :=
  '"' :: (field.flatMap fun c => if c = '"' then ['"', '"'] else [c]) ++ ['"']

/-- A field as it is written. -/
def writeField (field : List Char) : List Char := if needsQuotes field then quoted field else field

/-- The fields of a record with commas between them. -/
def writeFields : List (List Char) → List Char
  | [] => []
  | [field] => writeField field
  | field :: rest => writeField field ++ ',' :: writeFields rest

/-- A record and the end of its line. -/
def writeRecord (fields : List (List Char)) : List Char :=
  let line := writeFields fields
  (if line.isEmpty then ['"', '"'] else line) ++ ['\n']

/-- The text of records. -/
def write (records : List (List String)) : String :=
  String.ofList (records.flatMap fun fields => writeRecord (fields.map String.toList))

end AccessControl.Csv
