import AccessControl.Error
import AccessControl.Text.Blank
/-!
# Effects

What a matching row contributes to a decision, and the five ways to combine what all matching rows
contribute.
-/

namespace AccessControl

/-- What a matching row says. -/
inductive Effect where
  | allow
  | deny
  /-- The row has an effect field that is neither `allow` nor `deny`. -/
  | indeterminate
  deriving Repr, DecidableEq

/-- The effect of a row by its effect field; without one it allows. -/
def Effect.ofField : Option String → Effect
  | none => .allow
  | some s => if s = "allow" then .allow else if s = "deny" then .deny else .indeterminate

/-- How effects are combined. -/
inductive EffectKind where
  /-- Some row allows. -/
  | allowOverride
  /-- No row denies. -/
  | denyOverride
  /-- Some row allows and none denies. -/
  | allowAndDeny
  /-- The first row that allows or denies, in the order of priorities. -/
  | priority
  /-- The first row that allows or denies, the deepest subjects first. -/
  | subjectPriority
  deriving Repr, DecidableEq

namespace EffectKind

/-- The text of a kind in a model. -/
def text : EffectKind → String
  | .allowOverride => "some(where (p.eft == allow))"
  | .denyOverride => "!some(where (p.eft == deny))"
  | .allowAndDeny => "some(where (p.eft == allow)) && !some(where (p.eft == deny))"
  | .priority => "priority(p.eft) || deny"
  | .subjectPriority => "subjectPriority(p.eft) || deny"

/-- Every kind. -/
def all : List EffectKind :=
  [.allowOverride, .denyOverride, .allowAndDeny, .priority, .subjectPriority]

/-- Puts `p_eft` for every `p.eft`. -/
def joinField : List Char → List Char
  | 'p' :: '.' :: 'e' :: 'f' :: 't' :: rest => 'p' :: '_' :: 'e' :: 'f' :: 't' :: joinField rest
  | c :: rest => c :: joinField rest
  | [] => []

/-- A text without blanks in which the effect field is one name. -/
def compact (text : String) : List Char := joinField (Text.removeBlanks text).toList

/-- The kind of a text; blanks do not count. -/
def ofText (text : String) : Except ModelError EffectKind :=
  match all.find? fun k => compact k.text == compact text with
  | some k => .ok k
  | none => .error (.unsupportedEffect text)

/-- The decision when no row takes part in it. -/
def default (k : EffectKind) : Bool := k == .denyOverride

end EffectKind

end AccessControl
