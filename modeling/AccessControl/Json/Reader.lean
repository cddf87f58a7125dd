import AccessControl.Json.Basic
import AccessControl.Number.Binary64
import AccessControl.Number.Digits
/-!
# Reading JSON text

`parse?` reads one value with blanks around it.  Every step of the reader consumes a character, so
the length of the text bounds its depth.
-/

namespace AccessControl.Json

/-- The characters JSON allows between tokens. -/
def isSpace (c : Char) : Bool := c == ' ' || c == '\n' || c == '\t' || c == '\r'

def skipSpace (cs : List Char) : List Char := cs.dropWhile isSpace

/-- Four hexadecimal digits and the rest. -/
def readHex4 : List Char → Option (Nat × List Char)
  | a :: b :: c :: d :: rest => do
    let a ← Number.hexValue? a
    let b ← Number.hexValue? b
    let c ← Number.hexValue? c
    let d ← Number.hexValue? d
    pure (((a * 16 + b) * 16 + c) * 16 + d, rest)
  | _ => none

/-- The character of an escape by hexadecimal digits; two surrogates make one character. -/
def readUnicode (cs : List Char) : Option (Char × List Char) := do
  let (n, rest) ← readHex4 cs
  if 0xD800 ≤ n && n < 0xDC00 then
    match rest with
    | '\\' :: 'u' :: low =>
      let (m, rest) ← readHex4 low
      if 0xDC00 ≤ m && m < 0xE000 then
        pure (Char.ofNat (0x10000 + (n - 0xD800) * 0x400 + (m - 0xDC00)), rest)
      else none
    | _ => none
  else if 0xDC00 ≤ n && n < 0xE000 then none
  else pure (Char.ofNat n, rest)

/-- The string up to its closing quote; `acc` holds the characters read so far, last one first. -/
def readString : Nat → List Char → List Char → Option (String × List Char)
  | 0, _, _ => none
  | _ + 1, _, [] => none
  | _ + 1, acc, '"' :: rest => some (String.ofList acc.reverse, rest)
  | fuel + 1, acc, '\\' :: c :: rest =>
    match c with
    | '"' => readString fuel ('"' :: acc) rest
    | '\\' => readString fuel ('\\' :: acc) rest
    | '/' => readString fuel ('/' :: acc) rest
    | 'b' => readString fuel ('\x08' :: acc) rest
    | 'f' => readString fuel ('\x0c' :: acc) rest
    | 'n' => readString fuel ('\n' :: acc) rest
    | 'r' => readString fuel ('\r' :: acc) rest
    | 't' => readString fuel ('\t' :: acc) rest
    | 'u' =>
      match readUnicode rest with
      | some (u, rest) => readString fuel (u :: acc) rest
      | none => none
    | _ => none
  | fuel + 1, acc, c :: rest => readString fuel (c :: acc) rest

/-- The digits read as one number for as long as it stays below `2 ^ 64`, and how many were left. -/
def leadingValue : Nat → List Char → Nat × Nat
  | n, [] => (n, 0)
  | n, d :: ds =>
    let more := Number.decimalFrom n [d]
    if more < Number.twoTo 64 then leadingValue more ds else (n, ds.length + 1)

/-- A number scaled by a power of ten that is itself rounded first; powers below `10 ^ -308` are
applied in steps. -/
def scaleTen : Nat → Float → Int → Float
  | 0, x, _ => x
  | steps + 1, x, e =>
    if 0 ≤ e then x * Number.ofDecimal false 1 e
    else if -308 ≤ e then x / Number.ofDecimal false 1 (-e)
    else if x == 0.0 then x
    else scaleTen steps (x / Number.ofDecimal false 1 308) (e + 308)

/-- The binary64 number of a decimal: its digits are rounded, as many as fit 64 bits, and the result
is scaled.  Up to 15 digits and powers up to `10 ^ 22` this is the nearest number. -/
def readFloat (negative : Bool) (whole fraction : List Char) (exponent : Int) : Float :=
  let (n, left) := leadingValue 0 (whole ++ fraction)
  let x := scaleTen 8 (Number.nearest false n 1) (exponent - fraction.length + left)
  if negative then -x else x

/-- A number token: sign, whole digits, and perhaps a fraction and an exponent.  Only the first form
is an integer, and only when it fits 64 bits; the integer `-0` does not exist. -/
def readNumber (cs : List Char) : Option (Json × List Char) :=
  let (negative, cs) := match cs with
    | '-' :: rest => (true, rest)
    | _ => (false, cs)
  let whole := cs.takeWhile Char.isDigit
  let rest := cs.dropWhile Char.isDigit
  if whole = [] then none
  else
    let (fraction, rest, pointed) := match rest with
      | '.' :: more => (more.takeWhile Char.isDigit, more.dropWhile Char.isDigit, true)
      | _ => ([], rest, false)
    let (exponent, rest, powered) := match rest with
      | c :: more =>
        if c = 'e' || c = 'E' then
          let (minus, more) := match more with
            | '+' :: r => (false, r)
            | '-' :: r => (true, r)
            | _ => (false, more)
          let n : Int := Number.decimalValue (more.takeWhile Char.isDigit)
          (if minus then -n else n, more.dropWhile Char.isDigit, true)
        else (0, rest, false)
      | [] => (0, rest, false)
    let n := Number.decimalValue whole
    let fits := if negative then n ≠ 0 && n ≤ Number.twoTo 63 else n < Number.twoTo 64
    if !pointed && !powered && fits then some (.int (if negative then -(n : Int) else n), rest)
    else
      some (.float (readFloat negative whole fraction exponent), rest)

/-- The text after a word the value must start with. -/
def readWord (word : String) (value : Json) (cs : List Char) : Option (Json × List Char) :=
  if word.toList.isPrefixOf cs then some (value, cs.drop word.length) else none

mutual

/-- One value and the text after it. -/
def readValue : Nat → List Char → Option (Json × List Char)
  | 0, _ => none
  | fuel + 1, cs =>
    match skipSpace cs with
    | [] => none
    | '"' :: rest => (readString (rest.length + 1) [] rest).map fun (s, rest) => (.str s, rest)
    | '[' :: rest =>
      match skipSpace rest with
      | ']' :: rest => some (.arr [], rest)
      | rest => (readItems fuel [] rest).map fun (items, rest) => (.arr items, rest)
    | '\x7b' :: rest =>
      match skipSpace rest with
      | '\x7d' :: rest => some (.obj [], rest)
      | rest => (readMembers fuel [] rest).map fun (members, rest) => (.obj members, rest)
    | 't' :: rest => readWord "rue" (.bool true) rest
    | 'f' :: rest => readWord "alse" (.bool false) rest
    | 'n' :: rest => readWord "ull" .null rest
    | c :: rest => readNumber (c :: rest)

/-- The items of an array up to its closing bracket. -/
def readItems : Nat → List Json → List Char → Option (List Json × List Char)
  | 0, _, _ => none
  | fuel + 1, acc, cs => do
    let (item, rest) ← readValue fuel cs
    match skipSpace rest with
    | ',' :: rest => readItems fuel (item :: acc) rest
    | ']' :: rest => some ((item :: acc).reverse, rest)
    | _ => none

/-- The members of an object up to its closing brace. -/
def readMembers : Nat → List (String × Json) → List Char → Option (List (String × Json) × List Char)
  | 0, _, _ => none
  | fuel + 1, acc, cs =>
    match skipSpace cs with
    | '"' :: rest => do
      let (name, rest) ← readString (rest.length + 1) [] rest
      match skipSpace rest with
      | ':' :: rest =>
        let (value, rest) ← readValue fuel rest
        match skipSpace rest with
        | ',' :: rest => readMembers fuel ((name, value) :: acc) rest
        | '\x7d' :: rest => some (((name, value) :: acc).reverse, rest)
        | _ => none
      | _ => none
    | _ => none

end

/-- The value a text stands for. -/
def parse? (s : String) : Option Json :=
  let cs := s.toList
  match readValue (cs.length + 1) cs with
  | some (value, rest) => if skipSpace rest = [] then some value else none
  | none => none

end AccessControl.Json
