import AccessControl.Matching.Glob
import AccessControl.Matching.KeyPattern
import AccessControl.Matching.Network
/-!
# Predicates on two texts

The predicates by the names matchers call them with.  They also serve to match the names of roles
and domains, where the first text is the name asked for and the second the one stored.
-/

namespace AccessControl

/-- Whether an address, the first text, lies in a block, the second one.  Blanks around them do not
count. -/
def ipMatch (address block : String) : Bool :=
  let strip (s : String) : List Char := (Text.trim s).toList
  match Network.Address.ofText? (strip address), Network.Block.ofText? (strip block) with
  | some a, some b => b.contains a
  | _, _ => false

/-- The predicates every matcher can call. -/
inductive Predicate where
  | keyMatch
  | keyMatch2
  | keyMatch3
  | keyMatch4
  | keyMatch5
  | regexMatch
  | ipMatch
  | globMatch
  deriving Repr, DecidableEq

namespace Predicate

def all : List Predicate :=
  [.keyMatch, .keyMatch2, .keyMatch3, .keyMatch4, .keyMatch5, .regexMatch, .ipMatch, .globMatch]

def name : Predicate → String
  | .keyMatch => "keyMatch"
  | .keyMatch2 => "keyMatch2"
  | .keyMatch3 => "keyMatch3"
  | .keyMatch4 => "keyMatch4"
  | .keyMatch5 => "keyMatch5"
  | .regexMatch => "regexMatch"
  | .ipMatch => "ipMatch"
  | .globMatch => "globMatch"

def ofName? (s : String) : Option Predicate := all.find? fun p => p.name == s

/-- Whether a predicate holds of a text and a pattern. -/
def holds : Predicate → String → String → Bool
  | .keyMatch => AccessControl.keyMatch
  | .keyMatch2 => AccessControl.keyMatch2
  | .keyMatch3 => AccessControl.keyMatch3
  | .keyMatch4 => AccessControl.keyMatch4
  | .keyMatch5 => AccessControl.keyMatch5
  | .regexMatch => AccessControl.regexMatch
  | .ipMatch => AccessControl.ipMatch
  | .globMatch => AccessControl.globMatch

end Predicate

end AccessControl
