import AccessControl.Effect.Basic
import AccessControl.Model.Basic
import AccessControl.Text.Split
/-!
# Model text

A model is written as sections of definitions.

```
[request_definition]
r = sub, obj, act
```

Lines are joined over a backslash at their end.  Blank lines and lines that start with `#` or `;` are
skipped where no line is being continued.

* `logicalLines`     the joined lines with the numbers of their first lines
* `Model.ofText`     the model of a text
-/

namespace AccessControl

/-- The sections with the letters their definitions start with. -/
def sectionHeaders : List (String × String) :=
  [("request_definition", "r"), ("policy_definition", "p"), ("role_definition", "g"),
    ("policy_effect", "e"), ("matchers", "m")]

/-- The sections every model has. -/
def requiredSections : List (String × String) :=
  sectionHeaders.filter fun e => e.2 != "g"

/-- A line that may have been continued, with the number of its first part. -/
structure LogicalLine where
  number : Nat
  text : List Char
  deriving Repr, DecidableEq

/-- Whether a line stands for nothing. -/
def isIgnored (line : List Char) : Bool :=
  match line with
  | [] => true
  | c :: _ => c == '#' || c == ';'

/-- The part of a line before a backslash at its end. -/
def continued? (line : List Char) : Option (List Char) :=
  match line.reverse with
  | '\\' :: body => some body.reverse
  | _ => none

/-- Joins lines.  `pending` is the line being continued, and `number` that of the next line.  A line
continued past the end of the text is dropped. -/
def logicalLinesFrom (number : Nat) (pending : Option LogicalLine) :
    List (List Char) → List LogicalLine
  | [] => []
  | raw :: rest =>
    let line := Text.dropBlanksEnd (Text.dropBlanks raw)
    if pending.isNone && isIgnored line then logicalLinesFrom (number + 1) none rest
    else
      let start := pending.getD ⟨number, []⟩
      match continued? line with
      | some body =>
        let text := start.text ++ (Text.dropBlanksEnd body ++ [' '])
        logicalLinesFrom (number + 1) (some ⟨start.number, text⟩) rest
      | none => ⟨start.number, start.text ++ line⟩ :: logicalLinesFrom (number + 1) none rest

/-- The joined lines of a text. -/
def logicalLines (text : String) : List LogicalLine :=
  logicalLinesFrom 1 none (Text.lines text.toList)

/-- The name in a section header. -/
def header? (line : List Char) : Option String :=
  match line with
  | '[' :: rest =>
    match rest.reverse with
    | ']' :: name => some (Text.trim (String.ofList name.reverse))
    | _ => none
  | _ => none

/-- The two sides of the first equals sign. -/
def keyValue? (line : List Char) : Option (String × String) :=
  match line.dropWhile (· != '=') with
  | _ :: value =>
    some (Text.trim (String.ofList (line.takeWhile (· != '='))), Text.trim (String.ofList value))
  | [] => none

/-- Whether a name is that of a section with digits behind it. -/
def isKeyOf (sec key : String) : Bool :=
  sec.toList.isPrefixOf key.toList && (key.toList.drop sec.length).all Char.isDigit

namespace Model

/-- Takes one line into a model and a current section. -/
def readLine (m : Model) (sec : Option String) (line : List Char) :
    Except LineFault (Model × Option String) :=
  match header? line with
  | some name =>
    match sectionHeaders.find? fun e => e.1 == name with
    | some e => .ok (m, some e.2)
    | none => .error (.unknownSection name)
  | none =>
    match sec with
    | none => .error .outsideSection
    | some sec =>
      match keyValue? line with
      | none => .error .notKeyValue
      | some (key, value) =>
        if isKeyOf sec key then
          match m.define sec key value with
          | (m, true) => .ok (m, some sec)
          | (_, false) => .error (.emptyDefinition key)
        else .error (.foreignKey key sec)

/-- Takes lines into a model, up to the first that is at fault. -/
def readLines (m : Model) (sec : Option String) : List LogicalLine → Except ModelError Model
  | [] => .ok m
  | line :: rest =>
    match m.readLine sec line.text with
    | .ok (m, sec) => m.readLines sec rest
    | .error fault => .error (.malformedLine line.number fault)

/-- The first definition in section `e` that is no effect. -/
def checkEffects (m : Model) : Except ModelError Unit := go (m.definitions "e")
where
  go : List Definition → Except ModelError Unit
    | [] => .ok ()
    | d :: rest =>
      match EffectKind.ofText d.value with
      | .ok _ => go rest
      | .error e => .error e

/-- The model of a text. -/
def ofText (text : String) : Except ModelError Model :=
  match ({} : Model).readLines none (logicalLines text) with
  | .error e => .error e
  | .ok m =>
    let missing := requiredSections.filter fun e => !m.hasSection e.2
    if missing.isEmpty then
      match m.checkEffects with
      | .ok () => .ok m
      | .error e => .error e
    else .error (.missingSections (missing.map (·.1)))

end Model

end AccessControl
