/-!
# Tokens of matcher expressions

There are more tokens than the grammar uses: assignment, arrow, semicolon, brackets and braces are
tokens so that they can be refused by name.
-/

namespace AccessControl

/-- Operators and punctuation. -/
inductive Symbol where
  | and
  | or
  | not
  | eq
  | ne
  | lt
  | le
  | gt
  | ge
  | plus
  | minus
  | star
  | slash
  | percent
  | leftParen
  | rightParen
  | comma
  | dot
  | assign
  | arrow
  | semicolon
  | leftBrace
  | rightBrace
  | leftBracket
  | rightBracket
  deriving Repr, DecidableEq

/-- The characters a symbol is written with. -/
def Symbol.spelling : Symbol → String
  | .and => "&&"
  | .or => "||"
  | .not => "!"
  | .eq => "=="
  | .ne => "!="
  | .lt => "<"
  | .le => "<="
  | .gt => ">"
  | .ge => ">="
  | .plus => "+"
  | .minus => "-"
  | .star => "*"
  | .slash => "/"
  | .percent => "%"
  | .leftParen => "("
  | .rightParen => ")"
  | .comma => ","
  | .dot => "."
  | .assign => "="
  | .arrow => "->"
  | .semicolon => ";"
  | .leftBrace => "\x7b"
  | .rightBrace => "\x7d"
  | .leftBracket => "["
  | .rightBracket => "]"

/-- A token.  String tokens hold the text between the quotes with its escapes resolved. -/
inductive Token where
  | name (s : String)
  | str (s : String)
  | int (n : Int64)
  | float (x : Float)
  | bool (b : Bool)
  /-- The word `in`. -/
  | isIn
  | symbol (s : Symbol)

/-- A token and the byte offset at which it starts. -/
structure PlacedToken where
  token : Token
  offset : Nat

end AccessControl
