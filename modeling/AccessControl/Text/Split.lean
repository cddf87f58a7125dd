/-!
# Splitting texts

Texts are split at every occurrence of one character: fields at commas, model text at line ends.
-/

namespace AccessControl.Text

/-- The parts between the separators; there is always one. -/
def splitAt (sep : Char) : List Char → List (List Char)
  | [] => [[]]
  | c :: rest =>
    if c = sep then [] :: splitAt sep rest
    else
      match splitAt sep rest with
      | part :: parts => (c :: part) :: parts
      | [] => [[c]]

/-- Parts with a separator between any two. -/
def join (sep : Char) : List (List Char) → List Char
  | [] => []
  | [part] => part
  | part :: parts => part ++ sep :: join sep parts

theorem splitAt_ne_nil (sep : Char) (cs : List Char) : splitAt sep cs ≠ [] := by
  induction cs with
  | nil => simp [splitAt]
  | cons c rest ih =>
    unfold splitAt
    split
    · simp
    · split <;> simp

/-- The lines of a text.  A line end at the end of the text starts no further line. -/
def lines (cs : List Char) : List (List Char) :=
  let parts := splitAt '\n' cs
  if parts.getLast? = some [] then parts.dropLast else parts

end AccessControl.Text
