import AccessControl.Value.Kind
/-!
# Errors

Every way an operation can fail, by cause.  The wording is in one function per family, and the whole
text of an error is `Error.message`.

* `ModelError`    definitions, model text and the shape of requests
* `PolicyError`   rows that do not fit their definition
* `RoleError`     role links
* `MatcherError`  compiling and evaluating matcher expressions
* `StoreError`    reading and writing policy rows
-/

namespace AccessControl

/-! ## Definitions and model text -/

/-- What is wrong with a line of model text. -/
inductive LineFault where
  | unknownSection (name : String)
  | outsideSection
  | notKeyValue
  | foreignKey (key sec : String)
  | emptyDefinition (key : String)
  deriving Repr, DecidableEq

def LineFault.message : LineFault → String
  | .unknownSection name => "unknown section [" ++ name ++ "]"
  | .outsideSection => "definition outside of any section"
  | .notKeyValue => "expected 'key = value'"
  | .foreignKey key sec => "key '" ++ key ++ "' does not belong in section '" ++ sec ++ "'"
  | .emptyDefinition key => "empty definition for '" ++ key ++ "'"

inductive ModelError where
  /-- Sections every model needs and this one lacks. -/
  | missingSections (names : List String)
  | malformedLine (line : Nat) (fault : LineFault)
  | unknownDefinition (sec name : String)
  /-- A request with another number of values than its definition declares. -/
  | requestArity (expected got : Nat)
  | unsupportedEffect (text : String)
  deriving Repr, DecidableEq

def ModelError.message : ModelError → String
  | .missingSections names => "Missing required model section(s): " ++ ", ".intercalate names
  | .malformedLine line fault =>
    "Malformed model text at line " ++ toString line ++ ": " ++ fault.message
  | .unknownDefinition sec name => "Unknown definition " ++ sec ++ "." ++ name
  | .requestArity expected got =>
    "Request has " ++ toString got ++ " value(s) but the definition declares " ++ toString expected
  | .unsupportedEffect text => "Unsupported policy effect: " ++ text

/-! ## Rows and role links -/

inductive PolicyError where
  /-- A row with another number of fields than its definition declares. -/
  | fieldCount (name : String) (expected got : Nat)
  /-- Only the sections `p` and `g` hold rows. -/
  | unknownSection (sec : String)
  deriving Repr, DecidableEq

def PolicyError.message : PolicyError → String
  | .fieldCount name expected got =>
    "Rule for '" ++ name ++ "' has " ++ toString got ++ " field(s) but the definition declares " ++
      toString expected
  | .unknownSection sec => "Section '" ++ sec ++ "' does not hold policy rows"

inductive RoleError where
  /-- A link that would close a cycle; the path is the whole cycle, its first name repeated at the
  end. -/
  | cycle (path : List String)
  | missingManager (name : String)
  deriving Repr, DecidableEq

def RoleError.message : RoleError → String
  | .cycle path => "Role link cycle detected: " ++ " -> ".intercalate path
  | .missingManager name => "No role manager for '" ++ name ++ "'"

/-! ## Matcher expressions -/

/-- Why a text is no expression. -/
inductive SyntaxFault where
  | unexpectedCharacter (c : Char)
  | unterminatedString
  | integerOutOfRange (digits : String)
  | unexpectedToken (spelling : String)
  /-- One certain token was needed; `found` is `none` at the end of the text. -/
  | expectedToken (wanted : String) (found : Option String)
  | expectedSeparator
  | expectedAttribute
  | unexpectedEnd
  deriving Repr, DecidableEq

def SyntaxFault.message : SyntaxFault → String
  | .unexpectedCharacter c => "unexpected character '" ++ String.singleton c ++ "'"
  | .unterminatedString => "unterminated string literal"
  | .integerOutOfRange digits => "integer out of range '" ++ digits ++ "'"
  | .unexpectedToken spelling => "unexpected '" ++ spelling ++ "'"
  | .expectedToken wanted (some found) => "expected '" ++ wanted ++ "', found '" ++ found ++ "'"
  | .expectedToken wanted none => "expected '" ++ wanted ++ "', found end of input"
  | .expectedSeparator => "expected ',' or ')'"
  | .expectedAttribute => "expected attribute name after '.'"
  | .unexpectedEnd => "unexpected end of expression"

/-- Why operands do not fit their operation. -/
inductive TypeFault where
  | notString (what : String) (got : Kind)
  | noAttributes (field : String) (got : Kind)
  | unordered (left right : Kind)
  | undefinedOrder
  | overflow
  | integerOperation (sign : String)
  | unknownOperator (sign : String)
  | undefinedOperation (sign : String) (left right : Kind)
  | notNegatable (got : Kind)
  | evalTooDeep (limit : Nat)
  /-- A fault that a registered function reports in its own words. -/
  | reported (text : String)
  deriving Repr, DecidableEq

def TypeFault.message : TypeFault → String
  | .notString what got => what ++ " must be a string, got " ++ got.name
  | .noAttributes field got => "cannot read attribute '" ++ field ++ "' of " ++ got.name
  | .unordered left right => "cannot order " ++ left.name ++ " and " ++ right.name
  | .undefinedOrder => "NaN is not comparable"
  | .overflow => "integer overflow"
  | .integerOperation sign => "invalid integer operation '" ++ sign ++ "'"
  | .unknownOperator sign => "unknown operator '" ++ sign ++ "'"
  | .undefinedOperation sign left right =>
    "operator '" ++ sign ++ "' not defined for " ++ left.name ++ " and " ++ right.name
  | .notNegatable got => "cannot negate " ++ got.name
  | .evalTooDeep limit => "eval() nested deeper than " ++ toString limit
  | .reported text => text

inductive MatcherError where
  /-- A construct outside the portable expression language. -/
  | blocked (construct expr : String)
  /-- The offset counts the bytes of the text before the fault. -/
  | malformed (offset : Nat) (fault : SyntaxFault)
  | unknownFunction (name : String)
  | unbound (name : String)
  | type (fault : TypeFault)
  | arity (name expected : String) (got : Nat)
  /-- A truth value was needed. -/
  | notBoolean
  deriving Repr, DecidableEq

def MatcherError.message : MatcherError → String
  | .blocked construct expr =>
    "Disallowed construct '" ++ construct ++ "' in matcher expression: " ++ expr
  | .malformed offset fault =>
    "Syntax error at offset " ++ toString offset ++ ": " ++ fault.message
  | .unknownFunction name => "Unknown function: " ++ name
  | .unbound name => "Unbound identifier: " ++ name
  | .type fault => "Type error: " ++ fault.message
  | .arity name expected got =>
    "Function '" ++ name ++ "' expects " ++ expected ++ " argument(s), got " ++ toString got
  | .notBoolean => "Matcher did not return a boolean result"

/-! ## Stores -/

/-- The operations of a store. -/
inductive StoreOperation where
  | load
  | loadFiltered
  | save
  | clear
  | add
  | addMany
  | remove
  | removeMany
  | removeFiltered
  | update
  deriving Repr, DecidableEq

def StoreOperation.name : StoreOperation → String
  | .load => "load_policy"
  | .loadFiltered => "load_filtered_policy"
  | .save => "save_policy"
  | .clear => "clear_policy"
  | .add => "add_policy"
  | .addMany => "add_policies"
  | .remove => "remove_policy"
  | .removeMany => "remove_policies"
  | .removeFiltered => "remove_filtered_policy"
  | .update => "update_policy"

/-- What the file system can answer instead of doing its work. -/
inductive IoFailure where
  | notFound
  /-- Bytes that are not UTF-8 text. -/
  | invalidData
  | other
  deriving Repr, DecidableEq

def IoFailure.message : IoFailure → String
  | .notFound => "NotFound"
  | .invalidData => "InvalidData"
  | .other => "Other"

inductive StoreError where
  /-- The store does not have this operation; callers go on without it. -/
  | notSupported (operation : StoreOperation)
  /-- A record with a name and no field. -/
  | shortRecord (line : Nat)
  | io (failure : IoFailure)
  deriving Repr, DecidableEq

/-! ## All errors -/

inductive Error where
  | model (e : ModelError)
  | policy (e : PolicyError)
  | role (e : RoleError)
  | matcher (e : MatcherError)
  | store (e : StoreError)
  /-- The rows in memory are a filtered part of the store, so they must not replace it. -/
  | filteredSave
  | io (failure : IoFailure)
  deriving Repr, DecidableEq

/-- The text of an error.  A failure of the file system is told by its name alone. -/
def Error.message : Error → String
  | .model e => "Model error: " ++ e.message
  | .policy e => "Policy error: " ++ e.message
  | .role e => "RBAC error: " ++ e.message
  | .matcher e => "Matcher error: " ++ e.message
  | .store (.notSupported operation) =>
    "Adapter error: Adapter does not support '" ++ operation.name ++ "'"
  | .store (.shortRecord line) =>
    "Adapter error: Invalid policy line " ++ toString line ++
      ": expected a definition name followed by at least one field"
  | .store (.io failure) => failure.message
  | .filteredSave => "Invalid operation: cannot save a filtered policy"
  | .io failure => failure.message

/-- Whether a store said that it does not have an operation. -/
def Error.isNotSupported : Error → Bool
  | .store (.notSupported _) => true
  | _ => false

end AccessControl
