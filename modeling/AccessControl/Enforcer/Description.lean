import AccessControl.Enforcer.Basic
import AccessControl.Text.Quoted
/-!
# Descriptions

A one-line text of an enforcer for people who look for a fault: its model with all rows, the names of
its functions and role definitions, and its settings.  The store and the programs are left out.
-/

namespace AccessControl

/-- Texts between brackets. -/
def describeList (items : List String) : String := "[" ++ ", ".intercalate items ++ "]"

/-- Names with values between braces. -/
def describeMap (entries : List (String × String)) : String :=
  "\x7b" ++ ", ".intercalate (entries.map fun e => e.1 ++ ": " ++ e.2) ++ "\x7d"

/-- A named record of fields. -/
def describeRecord (name : String) (fields : List (String × String)) : String :=
  name ++ " \x7b " ++ ", ".intercalate (fields.map fun e => e.1 ++ ": " ++ e.2) ++ " \x7d"

def describeTexts (texts : List String) : String := describeList (texts.map Text.quoted)

def describeBool (b : Bool) : String := if b then "true" else "false"

/-- Texts in their order by code points. -/
def sortTexts (texts : List String) : List String := texts.mergeSort fun a b => decide (a ≤ b)

def Definition.describe (d : Definition) : String :=
  describeRecord "Assertion"
    [("key", Text.quoted d.key), ("value", Text.quoted d.value), ("tokens", describeTexts d.fields),
      ("policy", describeList (d.rows.map describeTexts)),
      ("counts", describeMap ((distinct d.rows).map fun row =>
        (describeTexts row, toString (d.counts.getD row 0)))),
      ("priority", match d.priority with
        | some i => "Some(" ++ toString i ++ ")"
        | none => "None")]

/-- The definitions of a section, by name. -/
def Model.describeSection (m : Model) (sec : String) : String :=
  describeMap ((m.definitions sec).map fun d => (Text.quoted d.key, d.describe))

def Model.describe (m : Model) : String :=
  describeRecord "Model"
    [("model", describeMap ((sortTexts m.sections.keys).map fun sec =>
      (Text.quoted sec, m.describeSection sec)))]

/-- The names of the functions, sorted. -/
def FunctionTable.describe (t : FunctionTable) : String :=
  describeRecord "FunctionMap" [("functions", describeTexts (sortTexts t.keys))]

def EnforcerConfig.describe (c : EnforcerConfig) : String :=
  describeRecord "EnforcerConfig"
    [("enabled", describeBool c.enabled), ("auto_save", describeBool c.autoSave),
      ("auto_build_role_links", describeBool c.autoLinks),
      ("log_enabled", describeBool c.logEnabled), ("max_hierarchy_level", toString c.maxLevel),
      ("cycle_detection", describeBool c.rejectCycles)]

/-- The text of an enforcer; the two dots stand for what is left out. -/
def Enforcer.describe {σ : Type} (e : Enforcer σ) : String :=
  "Enforcer \x7b model: " ++ e.model.describe ++ ", functions: " ++ e.functions.describe ++
    ", role_definitions: " ++ describeTexts e.managers.keys ++ ", config: " ++ e.config.describe ++
    ", .. \x7d"

end AccessControl
