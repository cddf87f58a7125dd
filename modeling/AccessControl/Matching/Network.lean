import AccessControl.Number.Digits
/-!
# Network addresses

Addresses of both versions in their usual text, and blocks of addresses that share their first bits.
An address of one version is never in a block of the other.  Blocks are read as in ipnetwork 0.21.
-/

namespace AccessControl.Network

/-- An address, by the number its bits make up. -/
inductive Address where
  | v4 (bits : Nat)
  | v6 (bits : Nat)
  deriving Repr, DecidableEq

/-- The addresses whose first `length` bits are those of `start`. -/
structure Block where
  start : Address
  length : Nat
  deriving Repr, DecidableEq

/-- Whether two numbers of `width` bits agree in their first `length` bits. -/
def sameStart (width length a b : Nat) : Bool :=
  a / Number.twoTo (width - length) == b / Number.twoTo (width - length)

def Block.contains (b : Block) : Address → Bool
  | .v4 n =>
    match b.start with
    | .v4 m => sameStart 32 b.length n m
    | .v6 _ => false
  | .v6 n =>
    match b.start with
    | .v6 m => sameStart 128 b.length n m
    | .v4 _ => false

/-! ## Reading addresses -/

/-- The value of a digit in a base up to sixteen. -/
def digitValue? (base : Nat) (c : Char) : Option Nat :=
  (Number.hexValue? c).filter fun n => n < base

/-- A number of at most `digits` digits and the text behind it. -/
def readDigits (base digits : Nat) (zeroFirst : Bool) (cs : List Char) : Option (Nat × List Char) :=
  let ds := cs.takeWhile fun c => (digitValue? base c).isSome
  let rest := cs.drop ds.length
  let n := (ds.filterMap (digitValue? base)).foldl (fun n d => base * n + d) 0
  if ds.length = 0 || digits < ds.length then none
  else if !zeroFirst && ds.head? == some '0' && 1 < ds.length then none
  else some (n, rest)

/-- A number below 256 without a zero in front. -/
def readOctet (cs : List Char) : Option (Nat × List Char) :=
  match readDigits 10 3 false cs with
  | some (n, rest) => if n < 256 then some (n, rest) else none
  | none => none

/-- The text behind a character it must start with. -/
def skipChar (c : Char) : List Char → Option (List Char)
  | d :: rest => if d = c then some rest else none
  | [] => none

/-- Four octets with points between them. -/
def readV4 (cs : List Char) : Option (Nat × List Char) := do
  let (a, cs) ← readOctet cs
  let cs ← skipChar '.' cs
  let (b, cs) ← readOctet cs
  let cs ← skipChar '.' cs
  let (c, cs) ← readOctet cs
  let cs ← skipChar '.' cs
  let (d, cs) ← readOctet cs
  some (((a * 256 + b) * 256 + c) * 256 + d, cs)

/-- Up to `limit` groups of hexadecimal digits with colons between them; the last two may be written
as an address of version 4, which is told. -/
def readGroups (first : Bool) : Nat → List Char → List Nat × Bool × List Char
  | 0, cs => ([], false, cs)
  | limit + 1, cs =>
    let start := if first then some cs else skipChar ':' cs
    let embedded := if limit = 0 then none else start.bind readV4
    match embedded with
    | some (n, rest) => ([n / 65536, n % 65536], true, rest)
    | none =>
      match start.bind (readDigits 16 4 true) with
      | some (n, rest) =>
        let (groups, inner, rest) := readGroups false limit rest
        (n :: groups, inner, rest)
      | none => ([], false, cs)

/-- The number of a list of groups. -/
def joinGroups (groups : List Nat) : Nat := groups.foldl (fun n g => 65536 * n + g) 0

/-- Eight groups, or fewer around one double colon. -/
def readV6 (cs : List Char) : Option (Nat × List Char) :=
  let (head, embedded, rest) := readGroups true 8 cs
  if head.length = 8 then some (joinGroups head, rest)
  else if embedded then none
  else
    match rest with
    | ':' :: ':' :: rest =>
      let (tail, _, rest) := readGroups true (7 - head.length) rest
      let zeros := List.replicate (8 - head.length - tail.length) 0
      some (joinGroups (head ++ zeros ++ tail), rest)
    | _ => none

/-- The number of an address of version 4 that is all of the text. -/
def v4OfText? (cs : List Char) : Option Nat :=
  match readV4 cs with
  | some (n, []) => some n
  | _ => none

def v6OfText? (cs : List Char) : Option Nat :=
  match readV6 cs with
  | some (n, []) => some n
  | _ => none

/-- The address a text names. -/
def Address.ofText? (cs : List Char) : Option Address :=
  match v4OfText? cs with
  | some n => some (.v4 n)
  | none => (v6OfText? cs).map .v6

/-! ## Reading blocks -/

/-- The length of a block, up to `limit`. -/
def lengthOfText? (limit : Nat) (cs : List Char) : Option Nat :=
  let ds := match cs with
    | '+' :: rest => rest
    | _ => cs
  let n := Number.decimalValue ds
  if ds ≠ [] && ds.all Char.isDigit && n ≤ 255 && n ≤ limit then some n else none

/-- The length of a block from its mask, ones before zeros. -/
def lengthOfMask? (mask : Nat) : Option Nat :=
  (List.range 33).find? fun length => mask == Number.twoTo 32 - Number.twoTo (32 - length)

/-- The block of an address alone, with a length behind a slash, or, in version 4, with a mask. -/
def Block.ofText? (cs : List Char) : Option Block :=
  let address := cs.takeWhile (· != '/')
  match cs.dropWhile (· != '/') with
  | [] =>
    match Address.ofText? address with
    | some (.v4 n) => some ⟨.v4 n, 32⟩
    | some (.v6 n) => some ⟨.v6 n, 128⟩
    | none => none
  | _ :: suffix =>
    match Address.ofText? address with
    | some (.v4 n) =>
      match lengthOfText? 32 suffix with
      | some length => some ⟨.v4 n, length⟩
      | none => ((v4OfText? suffix).bind lengthOfMask?).map fun length => ⟨.v4 n, length⟩
    | some (.v6 n) => (lengthOfText? 128 suffix).map fun length => ⟨.v6 n, length⟩
    | none => none

end AccessControl.Network
