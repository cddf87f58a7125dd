import AccessControl.Json.Basic
/-!
# Reading settings

Settings are an object with a member for each one that differs from its default; members that are no
settings are ignored.  They can also be an array, with the settings in their fixed order and the
defaults for those past its end.
-/

namespace AccessControl

/-- The settings with certain names. -/
def Json.settings? (names : List String) (j : Json) : Option (String → Option Json) :=
  match j with
  | .obj _ => some j.get?
  | .arr items => if items.length ≤ names.length then some fun name => items[names.idxOf name]? else none
  | _ => none

/-- A setting, or its default if it is not given. -/
def settingOr {α : Type} (default : α) (read : Json → Option α) : Option Json → Option α
  | none => some default
  | some j => read j

end AccessControl
