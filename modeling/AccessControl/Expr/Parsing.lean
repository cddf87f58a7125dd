import AccessControl.Expr.Basic
import AccessControl.Expr.Token
import AccessControl.Number.Layout
/-!
# The grammar of expressions

From the loosest to the tightest level:

    disjunction   conjunction ( "||" conjunction )*
    conjunction   comparison ( "&&" comparison )*
    comparison    sum ( ( "==" | "!=" | "<" | "<=" | ">" | ">=" ) sum )?  |  sum "in" "(" list ")"
    sum           product ( ( "+" | "-" ) product )*
    product       operand ( ( "*" | "/" | "%" ) operand )*
    operand       ( "!" | "-" ) operand  |  primary ( "." name )*
    primary       literal | name | name "(" list ")" | "(" disjunction ")"
    list          nothing, or disjunctions separated by commas

A parser takes the tokens left and returns an expression with the tokens behind it.  Each call lowers
a budget, and `Expr.ofTokens` gives enough for the deepest nesting the tokens allow.
-/

namespace AccessControl

/-- The levels of the grammar. -/
inductive Level where
  | disjunction
  | conjunction
  | comparison
  | sum
  | product
  | operand
  deriving Repr, DecidableEq

/-- The next tighter level. -/
def Level.next : Level → Level
  | .disjunction => .conjunction
  | .conjunction => .comparison
  | .comparison => .sum
  | .sum => .product
  | .product => .operand
  | .operand => .operand

/-- The operator that continues a chain of a level. -/
def Level.chainOp? : Level → Token → Option BinaryOp
  | .disjunction, .symbol .or => some .or
  | .conjunction, .symbol .and => some .and
  | .sum, .symbol .plus => some .add
  | .sum, .symbol .minus => some .sub
  | .product, .symbol .star => some .mul
  | .product, .symbol .slash => some .div
  | .product, .symbol .percent => some .rem
  | _, _ => none

/-- The operator of a comparison. -/
def comparisonOp? : Token → Option BinaryOp
  | .symbol .eq => some .eq
  | .symbol .ne => some .ne
  | .symbol .lt => some .lt
  | .symbol .le => some .le
  | .symbol .gt => some .gt
  | .symbol .ge => some .ge
  | _ => none

/-- The operator before an operand. -/
def unaryOp? : Token → Option UnaryOp
  | .symbol .not => some .not
  | .symbol .minus => some .neg
  | _ => none

/-- The value of a literal token. -/
def Token.literal? : Token → Option Value
  | .bool b => some (.bool b)
  | .int n => some (.int n)
  | .float x => some (.float x)
  | .str s => some (.str s)
  | _ => none

/-- A token as error messages show it. -/
def Token.spelling : Token → String
  | .name s => s
  | .str s => "'" ++ s ++ "'"
  | .int n => toString n.toInt
  | .float x => Number.plainText x
  | .bool b => if b then "true" else "false"
  | .isIn => "in"
  | .symbol s => s.spelling

namespace Expr

/-- An expression and the tokens behind it. -/
abbrev Parsed (α : Type) := Except MatcherError (α × List PlacedToken)

/-- An error at the first token left, or at the end of the text. -/
def fail {α : Type} (textEnd : Nat) (ts : List PlacedToken) (fault : SyntaxFault) :
    Except MatcherError α :=
  .error (.malformed ((ts.head?.map (·.offset)).getD textEnd) fault)

/-- The tokens behind a symbol that must come next. -/
def expect (textEnd : Nat) (s : Symbol) (ts : List PlacedToken) :
    Except MatcherError (List PlacedToken) :=
  match ts with
  | ⟨.symbol found, offset⟩ :: rest =>
    if found = s then .ok rest
    else .error (.malformed offset (.expectedToken s.spelling (some found.spelling)))
  | t :: _ => .error (.malformed t.offset (.expectedToken s.spelling (some t.token.spelling)))
  | [] => .error (.malformed textEnd (.expectedToken s.spelling none))

/-- Attribute names behind an expression. -/
def attributes (textEnd : Nat) (base : Expr) : List PlacedToken → Parsed Expr
  | ⟨.symbol .dot, _⟩ :: ⟨.name s, _⟩ :: rest => attributes textEnd (.attr base s) rest
  | ⟨.symbol .dot, _⟩ :: rest => fail textEnd rest .expectedAttribute
  | ts => .ok (base, ts)

mutual

/-- An expression of a level. -/
def parse (textEnd : Nat) : Nat → Level → List PlacedToken → Parsed Expr
  | 0, _, ts => fail textEnd ts .unexpectedEnd
  | budget + 1, .operand, ts =>
    match ts with
    | t :: rest =>
      match unaryOp? t.token with
      | some op =>
        match parse textEnd budget .operand rest with
        | .ok (e, rest) => .ok (.unary op e, rest)
        | .error e => .error e
      | none =>
        match primary textEnd budget t rest with
        | .ok (e, rest) => attributes textEnd e rest
        | .error e => .error e
    | [] => fail textEnd [] .unexpectedEnd
  | budget + 1, .comparison, ts =>
    match parse textEnd budget .sum ts with
    | .ok (left, []) => .ok (left, [])
    | .ok (left, t :: rest) =>
      match t.token with
      | .isIn =>
        match expect textEnd .leftParen rest with
        | .ok rest =>
          match list textEnd budget rest with
          | .ok (items, rest) => .ok (.isIn left items, rest)
          | .error e => .error e
        | .error e => .error e
      | token =>
        match comparisonOp? token with
        | some op =>
          match parse textEnd budget .sum rest with
          | .ok (right, rest) => .ok (.binary op left right, rest)
          | .error e => .error e
        | none => .ok (left, t :: rest)
    | .error e => .error e
  | budget + 1, level, ts =>
    match parse textEnd budget level.next ts with
    | .ok (left, rest) => chain textEnd budget level left rest
    | .error e => .error e

/-- The rest of a chain whose operands so far make up `left`. -/
def chain (textEnd : Nat) : Nat → Level → Expr → List PlacedToken → Parsed Expr
  | 0, _, _, ts => fail textEnd ts .unexpectedEnd
  | _ + 1, _, left, [] => .ok (left, [])
  | budget + 1, level, left, t :: rest =>
    match level.chainOp? t.token with
    | none => .ok (left, t :: rest)
    | some op =>
      match parse textEnd budget level.next rest with
      | .ok (right, rest) => chain textEnd budget level (.binary op left right) rest
      | .error e => .error e

/-- The primary expression that starts with a token. -/
def primary (textEnd : Nat) : Nat → PlacedToken → List PlacedToken → Parsed Expr
  | 0, t, rest => fail textEnd (t :: rest) .unexpectedEnd
  | budget + 1, t, rest =>
    match t.token with
    | .name s =>
      match rest with
      | ⟨.symbol .leftParen, _⟩ :: rest =>
        match list textEnd budget rest with
        | .ok (args, rest) => .ok (.call s args, rest)
        | .error e => .error e
      | _ => .ok (.field s, rest)
    | .symbol .leftParen =>
      match parse textEnd budget .disjunction rest with
      | .ok (e, rest) =>
        match expect textEnd .rightParen rest with
        | .ok rest => .ok (e, rest)
        | .error e => .error e
      | .error e => .error e
    | token =>
      match token.literal? with
      | some v => .ok (.literal v, rest)
      | none => fail textEnd (t :: rest) (.unexpectedToken token.spelling)

/-- Expressions separated by commas up to the closing parenthesis, from behind the opening one. -/
def list (textEnd : Nat) : Nat → List PlacedToken → Parsed (List Expr)
  | 0, ts => fail textEnd ts .unexpectedEnd
  | _ + 1, ⟨.symbol .rightParen, _⟩ :: rest => .ok ([], rest)
  | budget + 1, ts => items textEnd budget ts

/-- One expression or more, separated by commas, and the closing parenthesis. -/
def items (textEnd : Nat) : Nat → List PlacedToken → Parsed (List Expr)
  | 0, ts => fail textEnd ts .unexpectedEnd
  | budget + 1, ts =>
    match parse textEnd budget .disjunction ts with
    | .ok (e, ⟨.symbol .comma, _⟩ :: rest) =>
      match items textEnd budget rest with
      | .ok (es, rest) => .ok (e :: es, rest)
      | .error e => .error e
    | .ok (e, ⟨.symbol .rightParen, _⟩ :: rest) => .ok ([e], rest)
    | .ok (_, rest) => fail textEnd rest .expectedSeparator
    | .error e => .error e

end

/-- A budget no parse of so many tokens exhausts. -/
def budgetFor (count : Nat) : Nat := 10 * count + 10

/-- The expression that all the tokens of a text make up; `textEnd` is the length of the text in
bytes. -/
def ofTokens (ts : List PlacedToken) (textEnd : Nat) : Except MatcherError Expr :=
  match parse textEnd (budgetFor ts.length) .disjunction ts with
  | .ok (e, []) => .ok e
  | .ok (_, t :: _) => .error (.malformed t.offset (.unexpectedToken t.token.spelling))
  | .error e => .error e

end Expr

end AccessControl
