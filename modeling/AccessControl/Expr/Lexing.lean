import AccessControl.Error
import AccessControl.Expr.Token
import AccessControl.Number.Digits
import AccessControl.Number.Layout
import AccessControl.Text.Offset
/-!
# The tokens of a text

`tokens` splits the text of an expression.  A step reads one token and returns its lexeme with the
text behind it (`readToken`); the offset of the next token is the offset of this one and the bytes
of its lexeme.

    lexeme ++ rest = the text read, and no lexeme is empty          (`readToken_append`)
-/

namespace AccessControl

open Text

/-! ## Parts of tokens -/

/-- The four characters that may stand between tokens. -/
def isGap (c : Char) : Bool := c == ' ' || c == '\t' || c == '\n' || c == '\r'

def startsName (c : Char) : Bool := c == '_' || c.isAlpha

def continuesName (c : Char) : Bool := c == '_' || c.isAlphanum

/-- Symbols of two characters; they win over symbols of one. -/
def longSymbol? : Char → Char → Option Symbol
  | '&', '&' => some .and
  | '|', '|' => some .or
  | '=', '=' => some .eq
  | '!', '=' => some .ne
  | '<', '=' => some .le
  | '>', '=' => some .ge
  | '-', '>' => some .arrow
  | _, _ => none

/-- Symbols of one character. -/
def shortSymbol? : Char → Option Symbol
  | '=' => some .assign
  | '!' => some .not
  | '<' => some .lt
  | '>' => some .gt
  | '+' => some .plus
  | '-' => some .minus
  | '*' => some .star
  | '/' => some .slash
  | '%' => some .percent
  | '(' => some .leftParen
  | ')' => some .rightParen
  | ',' => some .comma
  | '.' => some .dot
  | ';' => some .semicolon
  | '\x7b' => some .leftBrace
  | '\x7d' => some .rightBrace
  | '[' => some .leftBracket
  | ']' => some .rightBracket
  | _ => none

/-- The character an escaped character stands for. -/
def unescape : Char → Char
  | 'n' => '\n'
  | 't' => '\t'
  | c => c

/-- The words that are no names. -/
def word (s : String) : Token :=
  if s = "true" then .bool true
  else if s = "false" then .bool false
  else if s = "in" then .isIn
  else .name s

/-- A literal from just behind its opening quote: its text, its lexeme and the text behind it.  A
backslash makes the next character part of the literal.  `none` when no quote closes it. -/
def readQuoted (quote : Char) : List Char → Option (List Char × List Char × List Char)
  | [] => none
  | '\\' :: c :: rest =>
    (readQuoted quote rest).map fun (text, lexeme, rest) =>
      (unescape c :: text, '\\' :: c :: lexeme, rest)
  | c :: rest =>
    if c = '\\' then none
    else if c = quote then some ([], [c], rest)
    else (readQuoted quote rest).map fun (text, lexeme, rest) => (c :: text, c :: lexeme, rest)

/-- A point with digits behind it, and the text behind those. -/
def splitFraction : List Char → Option (List Char) × List Char
  | '.' :: rest =>
    if rest.head?.any Char.isDigit then
      (some (rest.takeWhile Char.isDigit), rest.dropWhile Char.isDigit)
    else (none, '.' :: rest)
  | rest => (none, rest)

/-- The characters of a fraction. -/
def fractionLexeme : Option (List Char) → List Char
  | none => []
  | some digits => '.' :: digits

/-- The number token of its digits.  Integers stay below `2 ^ 63`. -/
def numberToken (whole : List Char) : Option (List Char) → Except SyntaxFault Token
  | some fraction =>
    .ok (.float (Number.ofDecimal false (Number.decimalValue (whole ++ fraction)) (-fraction.length)))
  | none =>
    if Number.decimalValue whole < Number.twoTo 63 then .ok (.int (Int64.ofNat (Number.decimalValue whole)))
    else .error (.integerOutOfRange (String.ofList whole))

/-- The number token a text starts with. -/
def readNumber (cs : List Char) : Except SyntaxFault (Token × List Char × List Char) :=
  let whole := cs.takeWhile Char.isDigit
  let (fraction, rest) := splitFraction (cs.dropWhile Char.isDigit)
  (numberToken whole fraction).map fun t => (t, whole ++ fractionLexeme fraction, rest)

/-- The token that starts with `c`, its lexeme, and the text behind it. -/
def readToken (c : Char) (rest : List Char) :
    Except SyntaxFault (Token × List Char × List Char) :=
  match rest.head?.bind (longSymbol? c) with
  | some s => .ok (.symbol s, c :: rest.take 1, rest.drop 1)
  | none =>
    match shortSymbol? c with
    | some s => .ok (.symbol s, [c], rest)
    | none =>
      if c = '\'' || c = '"' then
        match readQuoted c rest with
        | some (text, lexeme, rest) => .ok (.str (String.ofList text), c :: lexeme, rest)
        | none => .error .unterminatedString
      else if c.isDigit then readNumber (c :: rest)
      else if startsName c then
        let lexeme := c :: rest.takeWhile continuesName
        .ok (word (String.ofList lexeme), lexeme, rest.dropWhile continuesName)
      else .error (.unexpectedCharacter c)

/-! ## No character is lost -/

theorem readQuoted_append {quote : Char} {cs text lexeme rest : List Char}
    (h : readQuoted quote cs = some (text, lexeme, rest)) : lexeme ++ rest = cs ∧ lexeme ≠ [] := by
  fun_induction readQuoted quote cs generalizing text lexeme with
  | case1 => simp at h
  | case2 c more ih =>
    obtain ⟨⟨t, l, r⟩, hr, heq⟩ := Option.map_eq_some_iff.1 h
    simp only [Prod.mk.injEq] at heq
    obtain ⟨rfl, rfl, rfl⟩ := heq
    exact ⟨by simp [(ih hr).1], by simp⟩
  | case3 => simp at h
  | case4 more _ _ =>
    simp only [Option.some.injEq, Prod.mk.injEq] at h
    obtain ⟨rfl, rfl, rfl⟩ := h
    exact ⟨rfl, by simp⟩
  | case5 c more _ _ _ ih =>
    obtain ⟨⟨t, l, r⟩, hr, heq⟩ := Option.map_eq_some_iff.1 h
    simp only [Prod.mk.injEq] at heq
    obtain ⟨rfl, rfl, rfl⟩ := heq
    exact ⟨by simp [(ih hr).1], by simp⟩

theorem splitFraction_append (cs : List Char) :
    fractionLexeme (splitFraction cs).1 ++ (splitFraction cs).2 = cs := by
  unfold splitFraction
  split
  · split <;> simp [fractionLexeme]
  · simp [fractionLexeme]

theorem readNumber_append {cs lexeme rest : List Char} {t : Token}
    (h : readNumber cs = .ok (t, lexeme, rest)) :
    lexeme ++ rest = cs ∧ ∃ more, lexeme = cs.takeWhile Char.isDigit ++ more := by
  unfold readNumber at h
  simp only at h
  cases hn : numberToken (cs.takeWhile Char.isDigit)
      (splitFraction (cs.dropWhile Char.isDigit)).1 with
  | error e => simp [hn, Except.map] at h
  | ok n =>
    simp only [hn, Except.map, Except.ok.injEq, Prod.mk.injEq] at h
    obtain ⟨-, rfl, rfl⟩ := h
    exact ⟨by rw [List.append_assoc, splitFraction_append, List.takeWhile_append_dropWhile],
      _, rfl⟩

/-- A lexeme and the text behind it make up the text read, and it is not empty. -/
theorem readToken_append {c : Char} {cs lexeme rest : List Char} {t : Token}
    (h : readToken c cs = .ok (t, lexeme, rest)) : lexeme ++ rest = c :: cs ∧ lexeme ≠ [] := by
  unfold readToken at h
  split at h
  · simp only [Except.ok.injEq, Prod.mk.injEq] at h
    obtain ⟨-, rfl, rfl⟩ := h
    exact ⟨by cases cs <;> simp, by simp⟩
  · split at h
    · simp only [Except.ok.injEq, Prod.mk.injEq] at h
      obtain ⟨-, rfl, rfl⟩ := h
      exact ⟨rfl, by simp⟩
    · split at h
      · split at h
        · next hq =>
          simp only [Except.ok.injEq, Prod.mk.injEq] at h
          obtain ⟨-, rfl, rfl⟩ := h
          exact ⟨by simp [(readQuoted_append hq).1], by simp⟩
        · simp at h
      · split at h
        · next hd =>
          obtain ⟨happ, more, rfl⟩ := readNumber_append h
          exact ⟨happ, by simp [List.takeWhile, hd]⟩
        · split at h
          · simp only [Except.ok.injEq, Prod.mk.injEq] at h
            obtain ⟨-, rfl, rfl⟩ := h
            exact ⟨by simp, by simp⟩
          · simp at h

theorem readToken_length {c : Char} {cs lexeme rest : List Char} {t : Token}
    (h : readToken c cs = .ok (t, lexeme, rest)) : rest.length < (c :: cs).length := by
  obtain ⟨happ, hne⟩ := readToken_append h
  rw [← happ, List.length_append]
  have := List.length_pos_iff.2 hne
  omega

/-! ## All tokens -/

/-- The tokens of a text that starts at a byte offset. -/
def tokensFrom (offset : Nat) : List Char → Except MatcherError (List PlacedToken)
  | [] => .ok []
  | c :: rest =>
    if isGap c then tokensFrom (offset + 1) rest
    else
      match _read : readToken c rest with
      | .error fault => .error (.malformed offset fault)
      | .ok (token, lexeme, after) =>
        (tokensFrom (offset + byteLength lexeme) after).map (⟨token, offset⟩ :: ·)
  termination_by cs => cs.length
  decreasing_by
    · simp
    · exact readToken_length _read

/-- The tokens of an expression text. -/
def tokens (text : String) : Except MatcherError (List PlacedToken) := tokensFrom 0 text.toList

end AccessControl
