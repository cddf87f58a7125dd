import AccessControl.Expr.Lexing
import AccessControl.Expr.Reference
import AccessControl.Text.Slice
/-!
# Reading a text by its bytes

The layout behind `tokens` and `joinReferences`.  A scan goes along the bytes of a text; a byte stands for the
character with its number, which is the character that starts there when that is one byte long.  Names and
numbers are cut out between the offsets of their ends, literals and characters that no token starts with
are read from the text behind the offset.

* `scan`                the tokens of a text
* `joinBySlices`        the references of a text, joined between its literals
-/

namespace AccessControl

open Text

/-- What stops a scan: a place at which the text cannot be cut, or a fault of the text. -/
inductive Halt where
  | badCut (cut : BadCut)
  | fault (e : MatcherError)
  deriving Repr, DecidableEq

namespace Scan

/-! ## Ends of tokens -/

/-- The first offset, from one on, at which no byte of a kind is. -/
def skipWhile (p : Char → Bool) (s : String) (offset : Nat) : Nat :=
  if offset < s.utf8ByteSize ∧ (byteAt? s offset).any p = true then skipWhile p s (offset + 1) else offset
  termination_by s.utf8ByteSize - offset

/-- The text and the end of a literal, from the characters behind its opening quote; `offset` is that of the
first of them.  `none` when no quote closes it. -/
def closeQuote (quote : Char) (escaped : Bool) (text : List Char) (offset : Nat) :
    List Char → Option (List Char × Nat)
  | [] => none
  | c :: rest =>
    let next := offset + c.utf8Size
    if escaped then closeQuote quote false (text ++ [unescape c]) next rest
    else if c = '\\' then closeQuote quote true text next rest
    else if c = quote then some (text, next)
    else closeQuote quote false (text ++ [c]) next rest

/-! ## One token -/

/-- The string whose quote is at an offset, and where it ends. -/
def string (s : String) (start : Nat) : Except Halt (Token × Nat) :=
  match sliceFrom s start with
  | .error bad => .error (.badCut bad)
  | .ok behind =>
    match behind.toList with
    | [] => .error (.badCut ⟨start⟩)
    | quote :: rest =>
      match closeQuote quote false [] (start + quote.utf8Size) rest with
      | some (text, stop) => .ok (.str (String.ofList text), stop)
      | none => .error (.fault (.malformed start .unterminatedString))

/-- The number a text of digits stands for. -/
def integerOf (text : String) : Except SyntaxFault Token := numberToken text.toList none

/-- The number a text of digits, a point and digits stands for. -/
def fractionOf (text : String) : Except SyntaxFault Token :=
  numberToken (text.toList.takeWhile Char.isDigit) (some (text.toList.dropWhile Char.isDigit).tail)

/-- The token that the text between two offsets is read as. -/
def between (s : String) (start stop : Nat) (read : String → Except SyntaxFault Token) :
    Except Halt (Token × Nat) :=
  match slice s start stop with
  | .error bad => .error (.badCut bad)
  | .ok text =>
    match read text with
    | .ok t => .ok (t, stop)
    | .error fault => .error (.fault (.malformed start fault))

/-- The number whose first digit is at an offset, and where it ends. -/
def number (s : String) (start : Nat) : Except Halt (Token × Nat) :=
  let whole := skipWhile Char.isDigit s start
  if byteAt? s whole = some '.' ∧ (byteAt? s (whole + 1)).any Char.isDigit = true then
    between s start (skipWhile Char.isDigit s (whole + 1)) fractionOf
  else between s start whole integerOf

/-- The token that starts with byte `c` at an offset, and where it ends. -/
def token (s : String) (start : Nat) (c : Char) : Except Halt (Token × Nat) :=
  match (byteAt? s (start + 1)).bind (longSymbol? c) with
  | some symbol => .ok (.symbol symbol, start + 2)
  | none =>
    match shortSymbol? c with
    | some symbol => .ok (.symbol symbol, start + 1)
    | none =>
      if c = '\'' || c = '"' then string s start
      else if c.isDigit then number s start
      else if startsName c then
        between s start (skipWhile continuesName s start) fun text => .ok (word text)
      else
        match sliceFrom s start with
        | .error bad => .error (.badCut bad)
        | .ok behind => .error (.fault (.malformed start (.unexpectedCharacter (behind.toList.head?.getD '?'))))

/-! ## A token ends behind its start -/

theorem le_skipWhile (p : Char → Bool) (s : String) (offset : Nat) : offset ≤ skipWhile p s offset := by
  fun_induction skipWhile p s offset with
  | case1 offset _ ih => exact Nat.le_of_succ_le ih
  | case2 => exact Nat.le_refl _

theorem lt_skipWhile {p : Char → Bool} {s : String} {offset : Nat} {c : Char} (h : byteAt? s offset = some c)
    (hsize : offset < s.utf8ByteSize) (hp : p c = true) : offset < skipWhile p s offset := by
  rw [skipWhile, if_pos ⟨hsize, by rw [h]; exact hp⟩]
  exact le_skipWhile p s (offset + 1)

theorem lt_closeQuote {quote : Char} {escaped : Bool} {text : List Char} {offset : Nat} {cs : List Char}
    {answer : List Char × Nat} (h : closeQuote quote escaped text offset cs = some answer) : offset < answer.2 := by
  induction cs generalizing escaped text offset with
  | nil => simp [closeQuote] at h
  | cons c rest ih =>
    have hpos := c.utf8Size_pos
    have hlater : ∀ {escaped text}, closeQuote quote escaped text (offset + c.utf8Size) rest = some answer →
        offset < answer.2 := fun hrest => Nat.lt_of_le_of_lt (Nat.le_add_right _ _) (ih hrest)
    rw [closeQuote] at h
    split at h
    · exact hlater h
    · split at h
      · exact hlater h
      · split at h
        · rw [← Option.some.inj h]
          exact Nat.lt_add_of_pos_right hpos
        · exact hlater h

theorem stop_between {s : String} {start stop : Nat} {read : String → Except SyntaxFault Token}
    {answer : Token × Nat} (h : between s start stop read = .ok answer) : answer.2 = stop := by
  unfold between at h
  split at h
  · simp at h
  · split at h
    · rw [← Except.ok.inj h]
    · simp at h

theorem lt_token {s : String} {start : Nat} {c : Char} (hc : byteAt? s start = some c)
    (hsize : start < s.utf8ByteSize) {answer : Token × Nat} (h : token s start c = .ok answer) :
    start < answer.2 := by
  unfold token at h
  split at h
  · rw [← Except.ok.inj h]
    exact Nat.lt_add_of_pos_right (by decide)
  · split at h
    · rw [← Except.ok.inj h]
      exact Nat.lt_succ_self _
    · split at h
      · unfold string at h
        split at h
        · simp at h
        · split at h
          · simp at h
          · split at h
            · next hclose =>
              rw [← Except.ok.inj h]
              exact Nat.lt_of_le_of_lt (Nat.le_add_right _ _) (lt_closeQuote hclose)
            · simp at h
      · split at h
        · next hdigit =>
          have hwhole : start < skipWhile Char.isDigit s start := lt_skipWhile hc hsize hdigit
          unfold number at h
          dsimp only at h
          split at h
          · rw [stop_between h]
            have hle := le_skipWhile Char.isDigit s (skipWhile Char.isDigit s start + 1)
            omega
          · rw [stop_between h]
            exact hwhole
        · split at h
          · next hname =>
            rw [stop_between h]
            refine lt_skipWhile hc hsize ?_
            simp only [startsName, continuesName, Char.isAlphanum, Bool.or_eq_true] at hname ⊢
            exact hname.imp_right Or.inl
          · split at h <;> simp at h

end Scan

/-! ## All tokens -/

/-- The tokens of a text from an offset on. -/
def scanFrom (s : String) (start : Nat) : Except Halt (List PlacedToken) :=
  if _size : start < s.utf8ByteSize then
    match _byte : byteAt? s start with
    | none => .ok []
    | some c =>
      if isGap c then scanFrom s (start + 1)
      else
        match _token : Scan.token s start c with
        | .error halt => .error halt
        | .ok (t, stop) => (scanFrom s stop).map (⟨t, start⟩ :: ·)
  else .ok []
  termination_by s.utf8ByteSize - start
  decreasing_by
    · omega
    · have hlt : start < stop := Scan.lt_token _byte _size _token
      omega

/-- The tokens of a text. -/
def scan (s : String) : Except Halt (List PlacedToken) := scanFrom s 0

/-! ## References -/

/-- The number of bytes of the literal a text starts with; one without a closing quote is all of the text. -/
def quotedLength (s : String) : Nat :=
  match s.toList with
  | [] => 0
  | quote :: rest => ((Scan.closeQuote quote false [] quote.utf8Size rest).map (·.2)).getD s.utf8ByteSize

theorem quotedLength_pos {s : String} {c : Char} {rest : List Char} (h : s.toList = c :: rest) :
    0 < quotedLength s := by
  rw [quotedLength, h]
  dsimp only
  cases hclose : Scan.closeQuote c false [] c.utf8Size rest with
  | none =>
    refine Nat.pos_of_ne_zero fun hzero => ?_
    rw [String.utf8ByteSize_eq_zero_iff.1 hzero] at h
    simp at h
  | some answer => exact Nat.lt_of_le_of_lt (Nat.zero_le _) (Scan.lt_closeQuote hclose)

/-- Joins the references of a text without literals. -/
def joinPlain (s : String) : String := String.ofList (joinUnquoted true s.toList)

/-- Joins the references of a text piece by piece: what is before the first literal, that literal as it is, and
the text behind it. -/
def joinBySlices (s : String) : Except BadCut String :=
  match _open : offsetOf? isQuote s with
  | none => .ok (joinPlain s)
  | some start =>
    match slice s 0 start with
    | .error bad => .error bad
    | .ok plain =>
      match _behind : sliceFrom s start with
      | .error bad => .error bad
      | .ok behind =>
        match slice s start (start + quotedLength behind) with
        | .error bad => .error bad
        | .ok literal =>
          match _more : sliceFrom s (start + quotedLength behind) with
          | .error bad => .error bad
          | .ok more => (joinBySlices more).map fun joined => joinPlain plain ++ literal ++ joined
  termination_by byteLength s.toList
  decreasing_by
    obtain ⟨before, c, after, hs, -, -, rfl⟩ := offsetOf?_eq_some _open
    rw [sliceFrom_eq hs] at _behind
    obtain rfl := Except.ok.inj _behind
    have hpos := quotedLength_pos (String.toList_ofList (l := c :: after))
    obtain ⟨front, hfront, hlength⟩ := eq_of_sliceFrom _more
    rw [hfront, byteLength_append]
    omega

end AccessControl
