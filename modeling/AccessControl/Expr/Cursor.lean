import AccessControl.Expr.Parsing
/-!
# Parsing along places

The parser of `Expr.parse` with a cursor: all tokens stay in one list, and a parser goes from a place in it to
the place behind what it read.  A token that is taken only to be looked at is passed first, and the cursor goes
back when it does not fit; behind the last token the cursor passes nothing and still moves, so it may be past the
end until it goes back.

A walk that uses up its budget has no answer, so an answer is never that of a walk that was cut short.
-/

namespace AccessControl

namespace Cursor

/-- What a walk reads, with the place behind it, or a fault; `none` when the budget is used up. -/
abbrev Walked (α : Type) := Option (Except MatcherError (α × Nat))

/-- Goes on behind what was read. -/
def Walked.andThen {α β : Type} (w : Walked α) (next : α → Nat → Walked β) : Walked β :=
  match w with
  | some (.ok (a, place)) => next a place
  | some (.error e) => some (.error e)
  | none => none

/-- What was read, as part of something else. -/
def Walked.map {α β : Type} (f : α → β) (w : Walked α) : Walked β :=
  w.andThen fun a place => some (.ok (f a, place))

section

variable (ts : List PlacedToken) (textEnd : Nat)

/-- The token at a place. -/
def tokenAt (place : Nat) : Option Token := ts[place]?.map (·.token)

/-- The offset of the token at a place; behind the last token it is that of the end of the text. -/
def offsetAt (place : Nat) : Nat := (ts[place]?.map (·.offset)).getD textEnd

/-- A fault at a place. -/
def failAt {α : Type} (place : Nat) (fault : SyntaxFault) : Walked α :=
  some (.error (.malformed (offsetAt ts textEnd place) fault))

/-- Goes on behind a symbol that must come next. -/
def expect (s : Symbol) (place : Nat) : Walked Unit :=
  match tokenAt ts place with
  | some (.symbol found) =>
    if found = s then some (.ok ((), place + 1))
    else failAt ts textEnd place (.expectedToken s.spelling (some found.spelling))
  | some t => failAt ts textEnd place (.expectedToken s.spelling (some t.spelling))
  | none => failAt ts textEnd place (.expectedToken s.spelling none)

theorem lt_of_tokenAt {ts : List PlacedToken} {place : Nat} {t : Token} (h : tokenAt ts place = some t) :
    place < ts.length := by
  obtain ⟨found, hfound, -⟩ := Option.map_eq_some_iff.1 h
  exact (List.getElem?_eq_some_iff.1 hfound).1

/-- Attribute names behind an expression.  What is behind the dot is passed, and the cursor goes back when it
is no name. -/
def attributes (base : Expr) (place : Nat) : Walked Expr :=
  match _dot : tokenAt ts place with
  | some (.symbol .dot) =>
    match tokenAt ts (place + 1) with
    | some (.name s) => attributes (.attr base s) (place + 2)
    | _ => failAt ts textEnd (place + 2 - 1) .expectedAttribute
  | _ => some (.ok (base, place))
  termination_by ts.length - place
  decreasing_by
    have hlt := lt_of_tokenAt _dot
    omega

mutual

/-- An expression of a level. -/
def parse : Nat → Level → Nat → Walked Expr
  | 0, _, _ => none
  | budget + 1, .operand, place =>
    match (tokenAt ts place).bind unaryOp? with
    | some op => (parse budget .operand (place + 1)).map (.unary op)
    | none => (primary budget place).andThen (attributes ts textEnd)
  | budget + 1, .comparison, place =>
    (parse budget .sum place).andThen fun left place =>
      match tokenAt ts place with
      | some .isIn =>
        (expect ts textEnd .leftParen (place + 1)).andThen fun _ place =>
          (list budget place).map (.isIn left)
      | found =>
        match found.bind comparisonOp? with
        | some op => (parse budget .sum (place + 1)).map (.binary op left)
        | none => some (.ok (left, place))
  | budget + 1, level, place => (parse budget level.next place).andThen (chain budget level)
  termination_by structural budget => budget

/-- The rest of a chain whose operands so far make up `left`. -/
def chain : Nat → Level → Expr → Nat → Walked Expr
  | 0, _, _, _ => none
  | budget + 1, level, left, place =>
    match (tokenAt ts place).bind level.chainOp? with
    | some op =>
      (parse budget level.next (place + 1)).andThen fun right place =>
        chain budget level (.binary op left right) place
    | none => some (.ok (left, place))
  termination_by structural budget => budget

/-- A primary expression. -/
def primary : Nat → Nat → Walked Expr
  | 0, _ => none
  | budget + 1, place =>
    match tokenAt ts place with
    | none => failAt ts textEnd place .unexpectedEnd
    | some (.name s) =>
      match tokenAt ts (place + 1) with
      | some (.symbol .leftParen) => (list budget (place + 2)).map (.call s)
      | _ => some (.ok (.field s, place + 1))
    | some (.symbol .leftParen) =>
      (parse budget .disjunction (place + 1)).andThen fun e place =>
        (expect ts textEnd .rightParen place).map fun _ => e
    | some t =>
      match t.literal? with
      | some v => some (.ok (.literal v, place + 1))
      | none => failAt ts textEnd place (.unexpectedToken t.spelling)
  termination_by structural budget => budget

/-- Expressions separated by commas up to the closing parenthesis, from behind the opening one. -/
def list : Nat → Nat → Walked (List Expr)
  | 0, _ => none
  | budget + 1, place =>
    match tokenAt ts place with
    | some (.symbol .rightParen) => some (.ok ([], place + 1))
    | _ => items budget place
  termination_by structural budget => budget

/-- One expression or more, separated by commas, and the closing parenthesis.  What is behind an expression is
passed, and the cursor goes back when it is neither. -/
def items : Nat → Nat → Walked (List Expr)
  | 0, _ => none
  | budget + 1, place =>
    (parse budget .disjunction place).andThen fun e place =>
      match tokenAt ts place with
      | some (.symbol .comma) => (items budget (place + 1)).map (e :: ·)
      | some (.symbol .rightParen) => some (.ok ([e], place + 1))
      | _ => failAt ts textEnd (place + 1 - 1) .expectedSeparator
  termination_by structural budget => budget

end

/-- The expression that all the tokens of a text make up; `none` when the budget is used up. -/
def ofTokens : Option (Except MatcherError Expr) :=
  match parse ts textEnd (Expr.budgetFor ts.length) .disjunction 0 with
  | some (.ok (e, place)) =>
    match ts[place]? with
    | some extra => some (.error (.malformed extra.offset (.unexpectedToken extra.token.spelling)))
    | none => some (.ok e)
  | some (.error e) => some (.error e)
  | none => none

end

end Cursor

end AccessControl
