import AccessControl.Regex.Compile
import AccessControl.Matching.KeyPattern
/-!
# Reading the expression of a key pattern

The expression for the pieces of a key pattern is read without a parser's surprises as long as every
character of the pieces stands for itself (`isPlain`).  Three stages lead from the text to the pattern that
is searched for, and each has one lemma on pieces:

    text → node       one node for every piece                    (`readAlternatives_pieces`)
    node → pattern    one pattern for every piece                 (`resolveAll?_pieces`)
    pattern           accepted unless it is too large             (`ofText?_wholeText`)
-/

namespace AccessControl.Regex

/-- The characters that do not stand for themselves. -/
def specialChars : List Char := ['\\', '.', '^', '$', '|', '(', ')', '[', '?', '*', '+', '\x7b']

/-- Whether a character stands for itself in a regular expression. -/
def isPlain (c : Char) : Bool := !specialChars.contains c

variable {fuel n : Nat} {branches items : List Node} {rest : List Char} {names : List (List Char)}

theorem readPart_plain {c : Char} (hc : isPlain c = true) :
    readPart false (c :: rest) = some (.literal ⟨c, false⟩, rest) := by
  unfold readPart
  -- every other case is of a special character
  split <;> simp_all [isPlain, specialChars]

theorem readAlternatives_plain {c : Char} (hc : isPlain c = true) :
    readAlternatives (fuel + 1) branches items ⟨c :: rest, false, n, names⟩ =
      readAlternatives fuel branches (.literal ⟨c, false⟩ :: items) ⟨rest, false, n, names⟩ := by
  rw [readAlternatives]
  simp only [skip]
  split <;> simp_all [isPlain, specialChars, readPart_plain]

theorem readAlternatives_start :
    readAlternatives (fuel + 1) branches items ⟨'^' :: rest, false, n, names⟩ =
      readAlternatives fuel branches (.assertion .lineStart :: items) ⟨rest, false, n, names⟩ := rfl

theorem readAlternatives_end :
    readAlternatives (fuel + 1) branches items ⟨'$' :: rest, false, n, names⟩ =
      readAlternatives fuel branches (.assertion .lineEnd :: items) ⟨rest, false, n, names⟩ := rfl

/-- The class of all characters but a slash. -/
def noSlashNode : Node := .bracket true (.literal ⟨'/', false⟩)

theorem readClass_noSlash :
    readClass false (2 * ('^' :: '/' :: ']' :: rest).length + 2) ('^' :: '/' :: ']' :: rest) =
      some (.bracket true (.literal ⟨'/', false⟩), rest) := by
  have hfuel : 2 * ('^' :: '/' :: ']' :: rest).length + 2 = 2 * rest.length + 5 + 3 := by
    simp only [List.length_cons]
    omega
  rw [hfuel]
  simp [readClass, skip, readClassStart, readMembers, readRange, readMember, joinOperand,
    ClassNode.ofItems]

theorem readAlternatives_noSlash :
    readAlternatives (fuel + 1) branches items ⟨'[' :: '^' :: '/' :: ']' :: rest, false, n, names⟩ =
      readAlternatives fuel branches (noSlashNode :: items) ⟨rest, false, n, names⟩ := by
  rw [readAlternatives]
  simp only [skip, Bool.false_eq_true, if_false, readClass_noSlash]
  rfl

/-- The last part any number of times, but not zero times. -/
theorem readAlternatives_plus {item : Node} (hitem : ∀ changes, item ≠ .flags changes) :
    readAlternatives (fuel + 2) branches (item :: items) ⟨'+' :: ')' :: rest, false, n, names⟩ =
      readAlternatives fuel branches (.times 1 none true item :: items)
        ⟨')' :: rest, false, n, names⟩ := by
  cases item with
  | flags changes => exact absurd rfl (hitem changes)
  | _ => rfl

theorem readAlternatives_close :
    readAlternatives (fuel + 1) branches items ⟨')' :: rest, false, n, names⟩ =
      some (joinBranches branches items, ⟨')' :: rest, false, n, names⟩) := rfl

/-- A remembered segment. -/
def segmentNode (n : Nat) : Node := .group (some n) [] (.times 1 none true noSlashNode)

theorem readAlternatives_segment :
    readAlternatives (fuel + 6) branches items
        ⟨'(' :: '[' :: '^' :: '/' :: ']' :: '+' :: ')' :: rest, false, n, names⟩ =
      readAlternatives (fuel + 4) branches (segmentNode n :: items) ⟨rest, false, n + 1, names⟩ := by
  have hbody : readAlternatives (fuel + 4) [] []
      ⟨'[' :: '^' :: '/' :: ']' :: '+' :: ')' :: rest, false, n + 1, names⟩ =
        some (.times 1 none true noSlashNode, ⟨')' :: rest, false, n + 1, names⟩) := by
    rw [readAlternatives_noSlash, readAlternatives_plus (by simp [noSlashNode]),
      readAlternatives_close]
    rfl
  have hgroup : readGroup (fuel + 5) branches items false (some n) []
      ⟨'[' :: '^' :: '/' :: ']' :: '+' :: ')' :: rest, false, n + 1, names⟩ =
        readAlternatives (fuel + 4) branches (segmentNode n :: items)
          ⟨rest, false, n + 1, names⟩ := by
    rw [readGroup, hbody]
    rfl
  exact hgroup

/-! ## Pieces -/

/-- The nodes of pieces; the groups of the parameters are numbered from `n` on. -/
def pieceNodes : Nat → List Piece → List Node
  | _, [] => []
  | n, .char c :: rest => .literal ⟨c, false⟩ :: pieceNodes n rest
  | n, .param _ :: rest => segmentNode n :: pieceNodes (n + 1) rest

/-- The text of pieces, with a text for parameters. -/
def pieceText (param : List Char) : List Piece → List Char
  | [] => []
  | .char c :: rest => c :: pieceText param rest
  | .param _ :: rest => param ++ pieceText param rest

theorem flatMap_eq_pieceText {param : List Char} {f : Piece → List Char} (hchar : ∀ c, f (.char c) = [c])
    (hparam : ∀ name, f (.param name) = param) (pieces : List Piece) :
    pieces.flatMap f = pieceText param pieces := by
  induction pieces with
  | nil => rfl
  | cons p rest ih =>
    rw [List.flatMap_cons, ih]
    cases p with
    | char c => rw [hchar, pieceText, List.singleton_append]
    | param name => rw [hparam, pieceText]

theorem toList_wholeText (param : String) (pieces : List Piece) :
    (wholeText param pieces).toList = '^' :: (pieceText param.toList pieces ++ ['$']) := by
  simp only [wholeText, String.toList_append, String.toList_ofList]
  exact congrArg (fun body => '^' :: (body ++ ['$']))
    (flatMap_eq_pieceText (fun _ => rfl) (fun _ => rfl) pieces)

/-- The text of pieces with remembered segments for the parameters. -/
def groupedText (pieces : List Piece) : List Char := pieceText segmentGroup.toList pieces

theorem groupedText_char (c : Char) (pieces : List Piece) :
    groupedText (.char c :: pieces) = c :: groupedText pieces := rfl

theorem groupedText_param (name : List Char) (pieces : List Piece) :
    groupedText (.param name :: pieces) =
      '(' :: '[' :: '^' :: '/' :: ']' :: '+' :: ')' :: groupedText pieces := rfl

/-- The characters of pieces stand for themselves. -/
def PlainPieces (pieces : List Piece) : Prop := ∀ c, .char c ∈ pieces → isPlain c = true

variable {pieces : List Piece}

theorem readAlternatives_pieces (hplain : PlainPieces pieces) (n fuel : Nat) (items : List Node)
    (hfuel : 3 * (groupedText pieces).length + 2 ≤ fuel) :
    ∃ r, readAlternatives fuel [] items ⟨groupedText pieces ++ ['$'], false, n, []⟩ =
      some (joinBranches [] (.assertion .lineEnd :: ((pieceNodes n pieces).reverse ++ items)), r) ∧
        r.rest = [] := by
  induction pieces generalizing n items fuel with
  | nil =>
    obtain ⟨fuel, rfl⟩ : ∃ k, fuel = k + 2 := ⟨fuel - 2, by omega⟩
    refine ⟨⟨[], false, n, []⟩, ?_, rfl⟩
    rw [groupedText, pieceText, List.nil_append, readAlternatives_end]
    rfl
  | cons p rest ih =>
    have hrest : PlainPieces rest := fun c hc => hplain c (List.mem_cons_of_mem _ hc)
    cases p with
    | char c =>
      rw [groupedText_char, List.length_cons] at hfuel
      obtain ⟨fuel, rfl⟩ : ∃ k, fuel = k + 1 := ⟨fuel - 1, by omega⟩
      rw [groupedText_char, List.cons_append, readAlternatives_plain (hplain c List.mem_cons_self)]
      obtain ⟨r, hr, hend⟩ := ih hrest n fuel (.literal ⟨c, false⟩ :: items) (by omega)
      exact ⟨r, by rw [hr]; simp [pieceNodes], hend⟩
    | param name =>
      simp only [groupedText_param, List.length_cons] at hfuel
      obtain ⟨fuel, rfl⟩ : ∃ k, fuel = k + 6 := ⟨fuel - 6, by omega⟩
      simp only [groupedText_param, List.cons_append]
      rw [readAlternatives_segment]
      obtain ⟨r, hr, hend⟩ := ih hrest (n + 1) (fuel + 4) (segmentNode n :: items) (by omega)
      exact ⟨r, by rw [hr]; simp [pieceNodes], hend⟩

theorem ofText?_pieces (hplain : PlainPieces pieces) :
    Node.ofText? ('^' :: (groupedText pieces ++ ['$'])) =
      some (.concat (.assertion .lineStart :: (pieceNodes 1 pieces ++ [.assertion .lineEnd]))) := by
  obtain ⟨r, hr, hend⟩ := readAlternatives_pieces hplain 1
    (3 * (groupedText pieces).length + 8) [.assertion .lineStart] (by omega)
  have hfuel : 3 * ('^' :: (groupedText pieces ++ ['$'])).length + 3 =
      3 * (groupedText pieces).length + 8 + 1 := by
    simp only [List.length_cons, List.length_append, List.length_nil]
    omega
  have hitems : Node.ofItems (.assertion .lineStart :: (pieceNodes 1 pieces ++ [.assertion .lineEnd])) =
      .concat (.assertion .lineStart :: (pieceNodes 1 pieces ++ [.assertion .lineEnd])) := by
    cases pieceNodes 1 pieces <;> rfl
  rw [Node.ofText?, hfuel, readAlternatives_start, hr]
  simp [hend, joinBranches, Node.ofBranches, hitems]

/-! ## Meaning -/

/-- All characters but a slash. -/
def noSlash : CharSet := (CharSet.single '/').compl

theorem contains_noSlash (c : Char) : noSlash.contains c = true ↔ c ≠ '/' := by
  have hranges : noSlash = ⟨[⟨0, 46⟩, ⟨48, 0x10FFFF⟩]⟩ := rfl
  have hmax : c.toNat < 0x110000 := by
    have hvalid := c.valid
    simp only [UInt32.isValidChar, Nat.isValidChar] at hvalid
    change c.val.toNat < 0x110000
    omega
  rw [hranges, CharSet.contains_mk, Ne, ← Char.toNat_inj]
  simp only [List.mem_cons, List.not_mem_nil, or_false, exists_eq_or_imp, exists_eq_left,
    CharSet.holds_iff]
  change _ ↔ ¬ c.toNat = 47
  omega

/-- A remembered segment. -/
def segmentPattern (n : Nat) : Pattern := .group n (.times (.chars noSlash) 1 none true)

/-- The patterns of pieces; the groups of the parameters are numbered from `n` on. -/
def piecePatterns : Nat → List Piece → List Pattern
  | _, [] => []
  | n, .char c :: rest => .literal [c] :: piecePatterns n rest
  | n, .param _ :: rest => segmentPattern n :: piecePatterns (n + 1) rest

/-- The pattern of pieces for a whole key. -/
def keyPattern (pieces : List Piece) : Pattern :=
  .concat (.look .textStart :: (piecePatterns 1 pieces ++ [.look .textEnd]))

theorem resolve?_segmentNode (n : Nat) :
    (segmentNode n).resolve? {} = some (segmentPattern n, {}) := rfl

theorem resolveAll?_cons {item : Node} {P : Pattern} {items : List Node} {ps : List Pattern}
    (hitem : item.resolve? {} = some (P, {})) (hrest : Node.resolveAll? {} items = some (ps, {})) :
    Node.resolveAll? {} (item :: items) = some (P :: ps, {}) := by
  simp [Node.resolveAll?, hitem, hrest]

theorem resolveAll?_pieces (n : Nat) (pieces : List Piece) :
    Node.resolveAll? {} (pieceNodes n pieces ++ [.assertion .lineEnd]) =
      some (piecePatterns n pieces ++ [.look .textEnd], {}) := by
  induction pieces generalizing n with
  | nil => rfl
  | cons p rest ih =>
    cases p with
    | char c => exact resolveAll?_cons rfl (ih n)
    | param name => exact resolveAll?_cons (resolve?_segmentNode n) (ih (n + 1))

theorem depths_pieces (n : Nat) (pieces : List Piece) :
    Node.depths (pieceNodes n pieces ++ [.assertion .lineEnd]) ≤ 3 := by
  induction pieces generalizing n with
  | nil => exact Nat.zero_le 3
  | cons p rest ih =>
    cases p with
    | char c => exact Nat.max_le.2 ⟨Nat.zero_le _, ih n⟩
    | param name => exact Nat.max_le.2 ⟨Nat.le_refl 3, ih (n + 1)⟩

/-- The text of pieces for a whole key is an expression, unless it is too large. -/
theorem ofText?_wholeText (hplain : PlainPieces pieces) :
    Pattern.ofText? (wholeText segmentGroup pieces) =
      if (keyPattern pieces).fits then some (keyPattern pieces) else none := by
  let items : List Node := .assertion .lineStart :: (pieceNodes 1 pieces ++ [.assertion .lineEnd])
  have hnode : Node.ofText? (wholeText segmentGroup pieces).toList = some (.concat items) := by
    rw [toList_wholeText, ← groupedText, ofText?_pieces hplain]
  have hdepth : (Node.concat items).depth ≤ depthLimit := by
    have hle : Node.depths items ≤ 3 := Nat.max_le.2 ⟨Nat.zero_le _, depths_pieces 1 pieces⟩
    rw [Node.depth, depthLimit]
    omega
  have hpattern : (Node.concat items).pattern? = some (keyPattern pieces) := by
    rw [Node.pattern?, Node.resolve?, resolveAll?_cons rfl (resolveAll?_pieces 1 pieces)]
    rfl
  simp [Pattern.ofText?, hnode, hdepth, hpattern]

end AccessControl.Regex
