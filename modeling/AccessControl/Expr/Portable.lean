import AccessControl.Expr.Lexing
/-!
# Portable expressions

A matcher must mean the same wherever a model is read, so the constructs of scripting languages are
refused before parsing: their keywords, member access on their namespaces, assignment, arrows,
statements, and brackets and braces.  The first such construct is the one reported.
-/

namespace AccessControl

/-- Keywords of scripting languages. -/
def blockedWords : List String :=
  ["let", "fn", "lambda", "for", "while", "if", "else", "return", "new", "import", "use", "break",
    "continue"]

/-- Names whose members cannot be used; alone they are names as others. -/
def blockedNamespaces : List String := ["seq", "string", "math"]

/-- Symbols no portable expression has. -/
def Symbol.isBlocked : Symbol → Bool
  | .assign | .arrow | .semicolon | .leftBrace | .rightBrace | .leftBracket | .rightBracket => true
  | _ => false

/-- The construct that a token and the token behind it make up, when it is blocked. -/
def blockedConstruct? (t : Token) (next : Option Token) : Option String :=
  match t with
  | .name s =>
    if s ∈ blockedWords then some s
    else if s ∈ blockedNamespaces then
      match next with
      | some (.symbol .dot) => some (s ++ ".")
      | _ => none
    else none
  | .symbol s => if s.isBlocked then some s.spelling else none
  | _ => none

/-- The first blocked construct. -/
def firstBlocked? : List Token → Option String
  | [] => none
  | t :: rest =>
    match blockedConstruct? t rest.head? with
    | some construct => some construct
    | none => firstBlocked? rest

/-- Refuses tokens with a blocked construct; `text` is the expression the error shows. -/
def checkPortable (ts : List PlacedToken) (text : String) : Except MatcherError Unit :=
  match firstBlocked? (ts.map (·.token)) with
  | some construct => .error (.blocked construct text)
  | none => .ok ()

/-- Whether a text consists of tokens without a blocked construct. -/
def validate (text : String) : Except MatcherError Unit :=
  match tokens text with
  | .ok ts => checkPortable ts text
  | .error e => .error e

end AccessControl
