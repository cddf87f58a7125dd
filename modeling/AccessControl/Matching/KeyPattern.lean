import AccessControl.Regex.Compile
import AccessControl.Text.Offset
/-!
# Patterns for resource keys

Keys are paths such as `/user/42/files`.  A pattern names a family of keys:

    keyMatch     `*` ends the pattern and covers any rest
    keyMatch2    `:name` covers one segment, `/*` any rest
    keyMatch3    `{name}` covers one segment, `/*` any rest
    keyMatch4    the same, and one name covers equal texts
    keyMatch5    as `keyMatch3`, without the key's query

All but the first are regular expressions around the parameters, so that other text of the pattern
has its meaning there.  A pattern that is no regular expression matches no key.
-/

namespace AccessControl

open Regex

/-- Whether a regular expression matches somewhere in a key. -/
def regexMatch (key pattern : String) : Bool :=
  match Pattern.ofText? pattern with
  | some p => p.matchesIn key
  | none => false

/-! ## A wildcard at the end -/

/-- The part of a pattern before its first `*`; `none` without one. -/
def beforeStar? (pattern : List Char) : Option (List Char) :=
  if '*' ∈ pattern then some (pattern.takeWhile (· != '*')) else none

/-- A pattern with a `*` matches the keys that start like it; another one only itself.  The parts
are cut at the byte where the star stands. -/
def keyMatch (key pattern : String) : Bool :=
  match beforeStar? pattern.toList with
  | none => key == pattern
  | some head =>
    (Text.splitAtByte? (Text.byteLength head) key.toList).map (·.1) == some head

/-- The part of a key the `*` covers; empty when the pattern does not match. -/
def keyGet (key pattern : String) : String :=
  match beforeStar? pattern.toList with
  | none => ""
  | some head =>
    match Text.splitAtByte? (Text.byteLength head) key.toList with
    | some (start, rest) => if start = head then String.ofList rest else ""
    | none => ""

/-! ## Parameters -/

/-- A piece of a pattern. -/
inductive Piece where
  | char (c : Char)
  | param (name : List Char)
  deriving Repr, DecidableEq

/-- Lets `/*` cover any rest. -/
def widenStars : List Char → List Char
  | '/' :: '*' :: rest => '/' :: '.' :: '*' :: widenStars rest
  | c :: rest => c :: widenStars rest
  | [] => []

/-- Pieces of a pattern with parameters `:name`; the name runs to the end of the segment. -/
def colonPieces : List Char → List Piece
  | [] => []
  | c :: rest =>
    let name := rest.takeWhile (· != '/')
    if c = ':' && name ≠ [] then .param name :: colonPieces (rest.dropWhile (· != '/'))
    else .char c :: colonPieces rest
  termination_by cs => cs.length
  decreasing_by
    · have := congrArg List.length
        (List.takeWhile_append_dropWhile (p := fun x : Char => x != '/') (l := rest))
      simp only [List.length_append, List.length_cons] at this ⊢
      omega
    · simp

/-- The name of a parameter from behind its opening brace, and the text behind the closing one.  The
name is not empty, so a brace right behind the opening one belongs to it. -/
def braceName? : List Char → Option (List Char × List Char)
  | [] => none
  | c :: rest =>
    if c = '/' then none
    else
      match rest.dropWhile fun x => x != '\x7d' && x != '/' with
      | '\x7d' :: after => some (c :: rest.takeWhile fun x => x != '\x7d' && x != '/', after)
      | _ => none

theorem braceName?_length {cs name after : List Char} (h : braceName? cs = some (name, after)) :
    after.length < cs.length := by
  unfold braceName? at h
  split at h
  · simp at h
  · next c rest =>
    split at h
    · simp at h
    · have key := congrArg List.length
        (List.takeWhile_append_dropWhile (p := fun x => x != '\x7d' && x != '/') (l := rest))
      split at h
      · next hd =>
        simp only [Option.some.injEq, Prod.mk.injEq] at h
        obtain ⟨-, rfl⟩ := h
        rw [hd] at key
        simp only [List.length_append, List.length_cons] at key ⊢
        omega
      · simp at h

/-- Pieces of a pattern with parameters between braces. -/
def bracePieces : List Char → List Piece
  | [] => []
  | c :: rest =>
    match _name : if c = '\x7b' then braceName? rest else none with
    | some (name, after) => .param name :: bracePieces after
    | none => .char c :: bracePieces rest
  termination_by cs => cs.length
  decreasing_by
    · split at _name
      · have := braceName?_length _name
        simp only [List.length_cons]
        omega
      · simp at _name
    · simp

/-- The names of the parameters in order. -/
def paramNames (pieces : List Piece) : List (List Char) :=
  pieces.filterMap fun p => match p with
    | .char _ => none
    | .param name => some name

/-- The regular expression of pieces for a whole key; `param` stands for a parameter. -/
def wholeText (param : String) (pieces : List Piece) : String :=
  let body := pieces.flatMap fun p => match p with
    | .char c => [c]
    | .param _ => param.toList
  "^" ++ String.ofList body ++ "$"

/-- One segment, not empty. -/
def segment : String := "[^/]+"

/-- One segment, remembered. -/
def segmentGroup : String := "([^/]+)"

def keyMatch2 (key pattern : String) : Bool :=
  pattern == "*" ||
    regexMatch key (wholeText segment (colonPieces (widenStars pattern.toList)))

def keyMatch3 (key pattern : String) : Bool :=
  regexMatch key (wholeText segment (bracePieces (widenStars pattern.toList)))

/-- The text of every group of the leftmost match, from group 1 on. -/
def groupTexts? (count : Nat) (key pattern : String) : Option (List (Option (List Char))) := do
  let p ← Pattern.ofText? pattern
  let text := key.toList.toArray
  let (_, place) ← p.search text
  some ((List.range count).map fun i => Pattern.groupText? text place (i + 1))

/-- Whether every name has a text, and equal names equal texts. -/
def bindConsistently : List (List Char × List Char) → List (List Char) →
    List (Option (List Char)) → Bool
  | _, [], _ => true
  | bound, name :: names, some text :: texts =>
    match bound.find? fun b => b.1 == name with
    | some (_, earlier) => earlier == text && bindConsistently bound names texts
    | none => bindConsistently ((name, text) :: bound) names texts
  | _, _ :: _, _ => false

def keyMatch4 (key pattern : String) : Bool :=
  let pieces := bracePieces (widenStars pattern.toList)
  let names := paramNames pieces
  match groupTexts? names.length key (wholeText segmentGroup pieces) with
  | some texts => bindConsistently [] names texts
  | none => false

/-- A key without its query. -/
def withoutQuery (key : String) : String := String.ofList (key.toList.takeWhile (· != '?'))

def keyMatch5 (key pattern : String) : Bool := keyMatch3 (withoutQuery key) pattern

/-- The text a `:name` parameter covers; empty when the pattern does not match or has no such
parameter.  Of several with one name the first counts. -/
def keyGet2 (key pattern name : String) : String :=
  let pieces := colonPieces (widenStars pattern.toList)
  let names := (paramNames pieces).map fun n => n.dropWhile (· == ':')
  match names.idxOf? name.toList, groupTexts? names.length key (wholeText segmentGroup pieces) with
  | some i, some texts => String.ofList ((texts[i]?.getD none).getD [])
  | _, _ => ""

end AccessControl
