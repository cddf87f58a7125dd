import AccessControl.Number.Digits
import AccessControl.Regex.Node
import AccessControl.Text.Blank
/-!
# Escapes and numbers

What is read inside a regular expression: blanks and comments, numbers, and what a backslash makes of
the characters behind it.  A reader takes the characters left and returns those behind what it read;
`extended` tells whether blanks and comments are skipped.
-/

namespace AccessControl.Regex

open Unicode

/-! ## Blanks and comments -/

/-- Drops blanks and comments, from inside a comment or outside one. -/
def dropExtended : Bool → List Char → List Char
  | _, [] => []
  | true, c :: rest => dropExtended (c != '\n') rest
  | false, c :: rest =>
    if Text.isBlank c then dropExtended false rest
    else if c = '#' then dropExtended true rest
    else c :: rest

/-- Drops blanks and comments if they are skipped. -/
def skip (extended : Bool) (cs : List Char) : List Char :=
  if extended then dropExtended false cs else cs

/-- The characters up to the first one that is not to be kept, without what is skipped. -/
def gather (extended : Bool) (keep : Char → Bool) : Bool → List Char → List Char × List Char
  | _, [] => ([], [])
  | true, c :: rest => gather extended keep (c != '\n') rest
  | false, c :: rest =>
    if extended && Text.isBlank c then gather extended keep false rest
    else if extended && c == '#' then gather extended keep true rest
    else if keep c then
      let (kept, rest) := gather extended keep false rest
      (c :: kept, rest)
    else ([], c :: rest)

/-! ## Numbers -/

/-- The character of a code point that is one. -/
def charOfCode? (n : Nat) : Option Char :=
  if n < 0xD800 || (0xE000 ≤ n && n < 0x110000) then some (Char.ofNat n) else none

/-- The character written by hexadecimal digits, none of them missing. -/
def hexChar? (digits : List Char) : Option Char := do
  if digits = [] then none
  let values ← digits.mapM Number.hexValue?
  charOfCode? (values.foldl (fun n d => 16 * n + d) 0)

/-- So many characters, without what is skipped before each. -/
def readCount (extended : Bool) : Nat → List Char → Option (List Char × List Char)
  | 0, cs => some ([], cs)
  | n + 1, cs =>
    match skip extended cs with
    | c :: rest => (readCount extended n rest).map fun (taken, rest) => (c :: taken, rest)
    | [] => none

/-- The character behind `\x`, `\u` or `\U`: digits between braces, or `count` digits. -/
def readHex (extended : Bool) (count : Nat) (cs : List Char) : Option (Literal × List Char) :=
  match skip extended cs with
  | '\x7b' :: rest =>
    match gather extended (· != '\x7d') false rest with
    | (digits, _ :: rest) => (hexChar? digits).map fun c => (⟨c, false⟩, rest)
    | (_, []) => none
  | cs =>
    match readCount extended count cs with
    | some (digits, rest) => (hexChar? digits).map fun c => (⟨c, count == 2⟩, rest)
    | none => none

/-- A decimal number below `2 ^ 32` with blanks around it; `some none` when there is no digit. -/
def readDecimal (extended : Bool) (cs : List Char) : Option (Option Nat × List Char) :=
  let (digits, rest) := gather extended Char.isDigit false (cs.dropWhile Text.isBlank)
  let rest := rest.dropWhile Text.isBlank
  let n := Number.decimalValue digits
  if digits = [] then some (none, rest)
  else if n < Number.twoTo 32 then some (some n, rest)
  else none

/-- The bounds of a repetition from just behind its opening brace. -/
def readBounds (extended : Bool) (cs : List Char) : Option (Nat × Option Nat × List Char) := do
  let (low, rest) ← readDecimal extended (skip extended cs)
  match rest with
  | ',' :: rest =>
    match skip extended rest with
    | '\x7d' :: rest => low.map fun n => (n, none, rest)
    | rest =>
      let (high, rest) ← readDecimal extended rest
      match low, high, rest with
      | some n, some m, '\x7d' :: rest => if n ≤ m then some (n, some m, rest) else none
      | _, _, _ => none
  | '\x7d' :: rest => low.map fun n => (n, some n, rest)
  | _ => none

/-! ## Properties and boundaries -/

/-- The text before the first place where a test holds, and the text from there on. -/
def splitAt? (test : List Char → Bool) : List Char → Option (List Char × List Char)
  | [] => none
  | c :: rest =>
    if test (c :: rest) then some ([], c :: rest)
    else (splitAt? test rest).map fun (before, rest) => (c :: before, rest)

/-- The property a name between braces asks for, and whether its complement is meant.  Of the marks
between a property and its value, `!=` is looked for first, then `:`, then `=`. -/
def propertyQuery (name : List Char) : PropertyQuery × Bool :=
  match splitAt? (fun cs => cs.take 2 == ['!', '=']) name with
  | some (property, value) => (.valued property (value.drop 2), true)
  | none =>
    let mark (c : Char) := splitAt? fun cs => cs.take 1 == [c]
    match (mark ':' name).or (mark '=' name) with
    | some (property, value) => (.valued property (value.drop 1), false)
    | none => (.named name, false)

/-- The property behind `\p`: a name between braces, or one letter. -/
def readProperty (extended : Bool) (cs : List Char) :
    Option ((PropertyQuery × Bool) × List Char) :=
  match skip extended cs with
  | '\x7b' :: rest =>
    match gather extended (· != '\x7d') false rest with
    | (name, _ :: rest) => some (propertyQuery name, rest)
    | (_, []) => none
  | c :: rest => if c = '\\' then none else some ((.named [c], false), rest)
  | [] => none

/-- The boundary a name between braces means behind `\b`. -/
def boundary? : String → Option Assertion
  | "start" => some .wordStart
  | "end" => some .wordEnd
  | "start-half" => some .wordStartHalf
  | "end-half" => some .wordEndHalf
  | _ => none

/-- The boundary behind `\b`.  Braces around anything but letters and hyphens are a repetition of the
plain boundary. -/
def readBoundary (extended : Bool) (cs : List Char) : Option (Assertion × List Char) :=
  match cs with
  | '\x7b' :: rest =>
    let isPart (c : Char) : Bool := c.isAlpha || c == '-'
    match gather extended isPart false rest with
    | (_, []) => none
    | ([], _) => some (.wordBoundary, cs)
    | (name, c :: rest) =>
      if c = '\x7d' then (boundary? (String.ofList name)).map fun a => (a, rest) else none
  | _ => some (.wordBoundary, cs)

/-! ## Escapes -/

/-- What an escape stands for. -/
inductive Escape where
  | literal (l : Literal)
  | common (set : CommonSet) (negated : Bool)
  | property (query : PropertyQuery) (negated : Bool)
  | assertion (a : Assertion)

/-- The escape behind a backslash.  Signs stand for themselves; letters and digits without a meaning
are kept free. -/
def readEscape (extended : Bool) : List Char → Option (Escape × List Char)
  | [] => none
  | c :: rest =>
    let hex (count : Nat) : Option (Escape × List Char) :=
      (readHex extended count rest).map fun (l, rest) => (.literal l, rest)
    let property (negated : Bool) : Option (Escape × List Char) :=
      (readProperty extended rest).map fun ((query, complement), rest) =>
        (.property query (negated != complement), rest)
    match c with
    | 'x' => hex 2
    | 'u' => hex 4
    | 'U' => hex 8
    | 'p' => property false
    | 'P' => property true
    | 'd' => some (.common .digit false, rest)
    | 'D' => some (.common .digit true, rest)
    | 's' => some (.common .space false, rest)
    | 'S' => some (.common .space true, rest)
    | 'w' => some (.common .word false, rest)
    | 'W' => some (.common .word true, rest)
    | 'a' => some (.literal ⟨'\x07', false⟩, rest)
    | 'f' => some (.literal ⟨'\x0c', false⟩, rest)
    | 't' => some (.literal ⟨'\t', false⟩, rest)
    | 'n' => some (.literal ⟨'\n', false⟩, rest)
    | 'r' => some (.literal ⟨'\r', false⟩, rest)
    | 'v' => some (.literal ⟨'\x0b', false⟩, rest)
    | 'A' => some (.assertion .textStart, rest)
    | 'z' => some (.assertion .textEnd, rest)
    | 'b' => (readBoundary extended rest).map fun (a, rest) => (.assertion a, rest)
    | 'B' => some (.assertion .notWordBoundary, rest)
    | '<' => some (.assertion .wordStart, rest)
    | '>' => some (.assertion .wordEnd, rest)
    | _ =>
      if c.toNat < 128 && !c.isAlphanum then some (.literal ⟨c, false⟩, rest) else none

end AccessControl.Regex
