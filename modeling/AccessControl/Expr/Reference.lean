import AccessControl.Text.Offset
/-!
# Definition references

Model text writes the fields of definitions with a dot (`r.sub`, `p2.obj`), expressions name them
with an underscore (`r_sub`, `p2_obj`).  `joinReferences` puts the underscore for the dot, outside of
quoted literals.  A reference is `r` or `p` with digits behind it, at the start of the text between
two literals or behind a character that no name has; the dot of one reference is not such a
character for the next.
-/

namespace AccessControl

/-- A character names are made of. -/
def isNameChar (c : Char) : Bool := c == '_' || c.isAlphanum

def isQuote (c : Char) : Bool := c == '\'' || c == '"'

/-- The reference a text starts with, and the text behind its dot. -/
def referenceAt? : List Char → Option (List Char × List Char)
  | c :: rest =>
    if c = 'r' || c = 'p' then
      match rest.dropWhile Char.isDigit with
      | '.' :: after => some (c :: rest.takeWhile Char.isDigit, after)
      | _ => none
    else none
  | [] => none

/-- What a reference leaves is shorter. -/
theorem referenceAt?_length {cs name after : List Char} (h : referenceAt? cs = some (name, after)) :
    after.length < cs.length := by
  unfold referenceAt? at h
  split at h
  · next c rest =>
    split at h
    · have key := List.takeWhile_append_dropWhile (p := Char.isDigit) (l := rest)
      split at h
      · next hd =>
        simp only [Option.some.injEq, Prod.mk.injEq] at h
        obtain ⟨-, rfl⟩ := h
        rw [hd] at key
        rw [List.length_cons, ← key, List.length_append, List.length_cons]
        omega
      · simp at h
    · simp at h
  · simp at h

/-- Joins the references of a text without literals.  `atStart` says whether one may stand here. -/
def joinUnquoted (atStart : Bool) (cs : List Char) : List Char :=
  match cs with
  | [] => []
  | c :: rest =>
    match _found : if atStart then referenceAt? (c :: rest) else none with
    | some (name, after) => name ++ '_' :: joinUnquoted false after
    | none => c :: joinUnquoted (!isNameChar c) rest
  termination_by cs.length
  decreasing_by
    · split at _found
      · exact referenceAt?_length _found
      · simp at _found
    · simp

/-- The rest of a literal up to its closing quote or, when that is missing, all of the text; and the
text behind it. -/
def splitQuoted (quote : Char) : List Char → List Char × List Char
  | [] => ([], [])
  | '\\' :: c :: rest =>
    let (literal, rest) := splitQuoted quote rest
    ('\\' :: c :: literal, rest)
  | c :: rest =>
    if c = quote then ([c], rest)
    else
      let (literal, rest) := splitQuoted quote rest
      (c :: literal, rest)

/-- A literal and the text behind it make up the text. -/
theorem splitQuoted_append (quote : Char) (cs : List Char) :
    (splitQuoted quote cs).1 ++ (splitQuoted quote cs).2 = cs := by
  fun_induction splitQuoted quote cs <;> simp_all

/-- Joins the references outside of literals. -/
def joinReferencesIn (cs : List Char) : List Char :=
  let plain := cs.takeWhile fun c => !isQuote c
  match _rest : cs.dropWhile fun c => !isQuote c with
  | [] => joinUnquoted true plain
  | quote :: rest =>
    joinUnquoted true plain ++ quote :: (splitQuoted quote rest).1 ++
      joinReferencesIn (splitQuoted quote rest).2
  termination_by cs.length
  decreasing_by
    have key := congrArg List.length (splitQuoted_append quote rest)
    have all := congrArg List.length
      (List.takeWhile_append_dropWhile (p := fun c => !isQuote c) (l := cs))
    rw [_rest] at all
    simp only [List.length_append, List.length_cons] at key all
    omega

/-- The expression text in which references are single names. -/
def joinReferences (text : String) : String := String.ofList (joinReferencesIn text.toList)

end AccessControl
