import AccessControl.Proofs.Matching.Assignments
import AccessControl.Proofs.Matching.LiteralKeys
/-!
# Paths with parameters

A path is a row of segments with slashes between them, each a text or a parameter `{name}`.  It covers
the keys that come out when its parameters are given segments as values, the same one wherever a name
stands (`keyMatch4_iff_filledPath`).

The pieces of a path are those of its segments (`bracePieces_pathText`), so what holds of pieces with a
slash or the end behind every parameter holds of paths.
-/

namespace AccessControl

open Regex

/-- A segment of a path. -/
inductive PathSegment where
  /-- A text whose characters stand for themselves. -/
  | literal (cs : List Char) (hcs : ∀ c ∈ cs, isPlain c = true ∧ c ≠ '/')
  | param (name : List Char) (hne : name ≠ []) (hname : ∀ c ∈ name, c ≠ '\x7d' ∧ c ≠ '/')

namespace PathSegment

/-- The segment as it is written. -/
def text : PathSegment → List Char
  | literal cs _ => cs
  | param name _ _ => '\x7b' :: (name ++ ['\x7d'])

def pieces : PathSegment → List Piece
  | literal cs _ => cs.map .char
  | param name _ _ => [.param name]

/-- The segment with the value of its parameter. -/
def filled (σ : List Char → List Char) : PathSegment → List Char
  | literal cs _ => cs
  | param name _ _ => σ name

/-- The name of the segment's parameter. -/
def name? : PathSegment → Option (List Char)
  | literal _ _ => none
  | param name _ _ => some name

end PathSegment

/-- A path as it is written. -/
def pathText (path : List PathSegment) : List Char :=
  List.intercalate ['/'] (path.map PathSegment.text)

def pathPieces (path : List PathSegment) : List Piece :=
  List.intercalate [.char '/'] (path.map PathSegment.pieces)

/-- A path with the values of its parameters. -/
def filledPath (σ : List Char → List Char) (path : List PathSegment) : List Char :=
  List.intercalate ['/'] (path.map (PathSegment.filled σ))

variable {path : List PathSegment} {σ : List Char → List Char} {cs rest : List Char}

theorem pathText_singleton (s : PathSegment) : pathText [s] = s.text := List.intercalate_singleton

theorem pathText_cons_cons (s t : PathSegment) :
    pathText (s :: t :: path) = s.text ++ '/' :: pathText (t :: path) := by
  simp [pathText, List.intercalate_cons_cons]

theorem pathPieces_singleton (s : PathSegment) : pathPieces [s] = s.pieces := List.intercalate_singleton

theorem pathPieces_cons_cons (s t : PathSegment) :
    pathPieces (s :: t :: path) = s.pieces ++ .char '/' :: pathPieces (t :: path) := by
  simp [pathPieces, List.intercalate_cons_cons]

theorem filledPath_singleton (s : PathSegment) : filledPath σ [s] = s.filled σ :=
  List.intercalate_singleton

theorem filledPath_cons_cons (s t : PathSegment) :
    filledPath σ (s :: t :: path) = s.filled σ ++ '/' :: filledPath σ (t :: path) := by
  simp [filledPath, List.intercalate_cons_cons]

/-! ## The pieces of a path -/

theorem widenStars_cons {c : Char} (h : c = '/' → rest.head? ≠ some '*') :
    widenStars (c :: rest) = c :: widenStars rest := by
  rw [widenStars]
  rintro rest' rfl rfl
  exact h rfl rfl

theorem widenStars_append (h : '/' ∉ cs) : widenStars (cs ++ rest) = cs ++ widenStars rest := by
  induction cs with
  | nil => rfl
  | cons c cs ih =>
    have hc : c ≠ '/' := (List.ne_of_not_mem_cons h).symm
    rw [List.cons_append, widenStars_cons fun heq => absurd heq hc,
      ih (List.not_mem_of_not_mem_cons h)]
    rfl

theorem bracePieces_param {name : List Char} (hne : name ≠ [])
    (hname : ∀ c ∈ name, c ≠ '\x7d' ∧ c ≠ '/') :
    bracePieces ('\x7b' :: (name ++ '\x7d' :: rest)) = .param name :: bracePieces rest := by
  cases name with
  | nil => exact absurd rfl hne
  | cons c name =>
    obtain ⟨⟨-, hc⟩, hname⟩ := List.forall_mem_cons.1 hname
    have htest : ∀ x ∈ name, (x != '\x7d' && x != '/') = true := by
      simpa using hname
    have hfound : braceName? (c :: (name ++ '\x7d' :: rest)) = some (c :: name, rest) := by
      rw [braceName?, if_neg hc, List.dropWhile_append_of_pos htest, List.takeWhile_append_of_pos htest]
      simp
    rw [List.cons_append, bracePieces, if_pos rfl]
    split
    · next heq =>
      rw [hfound] at heq
      obtain ⟨rfl, rfl⟩ := Prod.mk.inj (Option.some.inj heq)
      rfl
    · next heq =>
      rw [hfound] at heq
      exact absurd heq (by simp)

namespace PathSegment

variable (s : PathSegment)

theorem slash_not_mem_text : '/' ∉ s.text := by
  cases s with
  | literal cs hcs => exact fun hmem => (hcs _ hmem).2 rfl
  | param name hne hname =>
    intro hmem
    rcases List.mem_cons.1 hmem with heq | hmem
    · exact absurd heq (by decide)
    · rcases List.mem_append.1 hmem with hmem | hmem
      · exact (hname _ hmem).2 rfl
      · exact absurd (List.mem_singleton.1 hmem) (by decide)

theorem head?_text_append (hrest : rest.head? ≠ some '*') : (s.text ++ rest).head? ≠ some '*' := by
  cases s with
  | literal cs hcs =>
    cases cs with
    | nil => exact hrest
    | cons c cs =>
      intro heq
      obtain rfl : c = '*' := Option.some.inj heq
      exact absurd (hcs _ List.mem_cons_self).1 (by decide)
  | param name hne hname => exact fun heq => absurd (Option.some.inj heq) (by decide)

theorem bracePieces_text_append : bracePieces (s.text ++ rest) = s.pieces ++ bracePieces rest := by
  cases s with
  | literal cs hcs =>
    exact bracePieces_append (fun hmem => absurd (hcs _ hmem).1 (by decide)) rest
  | param name hne hname =>
    rw [text, List.cons_append, List.append_assoc]
    exact bracePieces_param hne hname

end PathSegment

theorem head?_pathText : (pathText path).head? ≠ some '*' := by
  cases path with
  | nil => exact fun h => absurd h (by simp [pathText])
  | cons s path =>
    cases path with
    | nil =>
      rw [pathText_singleton, ← List.append_nil s.text]
      exact s.head?_text_append (by simp)
    | cons t path =>
      rw [pathText_cons_cons]
      exact s.head?_text_append (by simp)

/-- Nothing is widened in a path. -/
theorem widenStars_pathText : widenStars (pathText path) = pathText path := by
  induction path with
  | nil => rfl
  | cons s path ih =>
    cases path with
    | nil =>
      rw [pathText_singleton, ← List.append_nil s.text, widenStars_append s.slash_not_mem_text]
      rfl
    | cons t path =>
      rw [pathText_cons_cons, widenStars_append s.slash_not_mem_text,
        widenStars_cons fun _ => head?_pathText, ih]

theorem bracePieces_pathText : bracePieces (pathText path) = pathPieces path := by
  induction path with
  | nil => simp [pathText, pathPieces, bracePieces]
  | cons s path ih =>
    cases path with
    | nil =>
      rw [pathText_singleton, pathPieces_singleton, ← List.append_nil s.text,
        s.bracePieces_text_append, bracePieces, List.append_nil]
    | cons t path =>
      rw [pathText_cons_cons, s.bracePieces_text_append, bracePieces_cons (by decide), ih,
        pathPieces_cons_cons]

theorem PathSegment.plainPieces_pieces (s : PathSegment) : PlainPieces s.pieces := by
  cases s with
  | literal cs hcs => exact plainPieces_chars fun c hc => (hcs c hc).1
  | param name hne hname => exact fun c hc => absurd (List.mem_singleton.1 hc) (by simp)

theorem plainPieces_pathPieces : PlainPieces (pathPieces path) := by
  induction path with
  | nil => exact fun c hc => absurd hc (by simp [pathPieces])
  | cons s path ih =>
    cases path with
    | nil =>
      rw [pathPieces_singleton]
      exact s.plainPieces_pieces
    | cons t path =>
      intro c hc
      rw [pathPieces_cons_cons] at hc
      rcases List.mem_append.1 hc with hown | hrest
      · exact s.plainPieces_pieces c hown
      · rcases List.mem_cons.1 hrest with heq | hrest
        · exact Piece.char.inj heq ▸ (by decide)
        · exact ih c hrest

theorem separated_chars_append {rest : List Piece} (h : Separated rest) (cs : List Char) :
    Separated (cs.map .char ++ rest) := by
  induction cs with
  | nil => exact h
  | cons c cs ih => exact ih

theorem PathSegment.separated_pieces_append (s : PathSegment) {rest : List Piece} (h : Separated rest)
    (hhead : ∀ p ∈ rest.head?, p = .char '/') : Separated (s.pieces ++ rest) := by
  cases s with
  | literal cs hcs => exact separated_chars_append h cs
  | param name hne hname => exact ⟨hhead, h⟩

theorem separated_pathPieces : Separated (pathPieces path) := by
  induction path with
  | nil => trivial
  | cons s path ih =>
    cases path with
    | nil =>
      rw [pathPieces_singleton, ← List.append_nil s.pieces]
      exact s.separated_pieces_append trivial (by simp)
    | cons t path =>
      rw [pathPieces_cons_cons]
      exact s.separated_pieces_append ih (by simp)

/-! ## Filled paths -/

theorem PathSegment.paramNames_pieces (s : PathSegment) : paramNames s.pieces = s.name?.toList := by
  cases s with
  | literal cs hcs => simp [pieces, paramNames, name?, List.filterMap_map]
  | param name hne hname => rfl

theorem PathSegment.filledPieces_pieces (s : PathSegment) : filledPieces σ s.pieces = s.filled σ := by
  cases s with
  | literal cs hcs => simp [pieces, filledPieces, filled, List.flatMap_map]
  | param name hne hname => simp [pieces, filledPieces, filled]

theorem paramNames_pathPieces : paramNames (pathPieces path) = path.filterMap PathSegment.name? := by
  induction path with
  | nil => rfl
  | cons s path ih =>
    have hown : (s :: path).filterMap PathSegment.name? =
        paramNames s.pieces ++ path.filterMap PathSegment.name? := by
      rw [s.paramNames_pieces, List.filterMap_cons]
      cases s.name? <;> rfl
    rw [hown, ← ih]
    cases path with
    | nil =>
      rw [pathPieces_singleton]
      exact (List.append_nil _).symm
    | cons t path =>
      rw [pathPieces_cons_cons, paramNames_append]
      rfl

theorem filledPieces_pathPieces : filledPieces σ (pathPieces path) = filledPath σ path := by
  induction path with
  | nil => rfl
  | cons s path ih =>
    cases path with
    | nil => rw [pathPieces_singleton, filledPath_singleton, s.filledPieces_pieces]
    | cons t path =>
      have hrest : filledPieces σ (.char '/' :: pathPieces (t :: path)) =
          '/' :: filledPath σ (t :: path) := by
        rw [← ih]
        rfl
      rw [pathPieces_cons_cons, filledPieces_append, s.filledPieces_pieces, hrest, filledPath_cons_cons]

/-! ## Keys -/

/-- A path matches a key iff an assignment makes the key of it, unless the path is too large. -/
theorem keyMatch4_pathText (key : String) (path : List PathSegment) :
    keyMatch4 key (String.ofList (pathText path)) = true ↔
      (keyPattern (pathPieces path)).fits = true ∧
        ∃ σ : List Char → List Char, (∀ name ∈ path.filterMap PathSegment.name?, IsSegment (σ name)) ∧
          filledPath σ path = key.toList := by
  have hpieces : bracePieces (widenStars (String.ofList (pathText path)).toList) = pathPieces path := by
    rw [String.toList_ofList, widenStars_pathText, bracePieces_pathText]
  rw [keyMatch4_iff_filledPieces plainPieces_pathPieces separated_pathPieces hpieces,
    paramNames_pathPieces]
  simp only [filledPieces_pathPieces]

/-- **Paths with parameters.**  A path covers the keys that come out when every parameter is given a
segment as its value, one for all of its occurrences; one whose expression is too large covers none.  A
path of up to 7500 characters is not. -/
theorem keyMatch4_iff_filledPath (key : String) (path : List PathSegment) :
    (keyMatch4 key (String.ofList (pathText path)) = true ↔
      (Pattern.ofText? (wholeText segmentGroup (pathPieces path))).isSome = true ∧
        ∃ σ : List Char → List Char, (∀ name ∈ path.filterMap PathSegment.name?, IsSegment (σ name)) ∧
          filledPath σ path = key.toList) ∧
    ((pathText path).length ≤ 7500 →
      (Pattern.ofText? (wholeText segmentGroup (pathPieces path))).isSome = true) := by
  have hfits : (Pattern.ofText? (wholeText segmentGroup (pathPieces path))).isSome = true ↔
      (keyPattern (pathPieces path)).fits = true := by
    rw [ofText?_wholeText plainPieces_pathPieces]
    split
    · next h => simp [h]
    · next h => simp [h]
  rw [hfits]
  refine ⟨keyMatch4_pathText key path, fun hlength => ?_⟩
  rw [← bracePieces_pathText]
  exact fits_keyPattern_of_length_le hlength

/-- A name that stands twice has one value. -/
theorem keyMatch4_iff_filledPath_parent :
    keyMatch4 "/parent/1/child/1" "/parent/\x7bid\x7d/child/\x7bid\x7d" = true := by
  let id : PathSegment := .param ['i', 'd'] (by simp) (by simp)
  let path : List PathSegment := [.literal [] (by simp),
    .literal ['p', 'a', 'r', 'e', 'n', 't'] (by simp [isPlain, specialChars]), id,
    .literal ['c', 'h', 'i', 'l', 'd'] (by simp [isPlain, specialChars]), id]
  have hpath := keyMatch4_iff_filledPath "/parent/1/child/1" path
  have hlength : (pathText path).length ≤ 7500 := by decide
  have hfilled : filledPath (fun _ => ['1']) path = "/parent/1/child/1".toList := rfl
  exact hpath.1.2 ⟨hpath.2 hlength, fun _ => ['1'], fun _ _ => ⟨by simp, by simp⟩, hfilled⟩

/-! ## Paths that are too large -/

theorem byteLength_replicate (n : Nat) : Text.byteLength (List.replicate n 'a') = n := by
  induction n with
  | zero => rfl
  | succ n ih =>
    rw [List.replicate_succ, Text.byteLength, ih]
    exact Nat.add_comm 1 n

/-- A path of one long segment. -/
def longPath (n : Nat) : List PathSegment :=
  [.literal (List.replicate n 'a') fun c hc => by
    rw [List.eq_of_mem_replicate hc]
    decide]

theorem fits_longPath (n : Nat) : (keyPattern (pathPieces (longPath n))).fits = true ↔ n ≤ 327674 := by
  rw [longPath, pathPieces_singleton, PathSegment.pieces, keyPattern_chars, fits_wholeLiteral,
    byteLength_replicate]

/-- A path that is too large does not cover the key equal to it. -/
theorem not_always_filledPath : ¬ ∀ (key : String) (path : List PathSegment),
    keyMatch4 key (String.ofList (pathText path)) = true ↔
      ∃ σ : List Char → List Char, (∀ name ∈ path.filterMap PathSegment.name?, IsSegment (σ name)) ∧
        filledPath σ path = key.toList := by
  intro h
  let key := String.ofList (List.replicate 400000 'a')
  have hkey : filledPath id (longPath 400000) = key.toList := by
    rw [longPath, filledPath_singleton, String.toList_ofList]
    rfl
  have hmatch := (h key (longPath 400000)).2 ⟨id, List.forall_mem_nil _, hkey⟩
  have hfits := ((keyMatch4_pathText key (longPath 400000)).1 hmatch).1
  exact absurd ((fits_longPath 400000).1 hfits) (by decide)

end AccessControl
