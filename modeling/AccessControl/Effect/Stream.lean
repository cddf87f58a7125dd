import AccessControl.Effect.Basic
/-!
# Combining effects one by one

A stream takes the effects of the matching rows in order and tells after each whether the decision can
still change.

* `EffectStream.push`   the next effect
* `Effector`            the rule that an enforcer combines by: the one of the effect kind, or another
-/

namespace AccessControl

/-- The state of a combination. -/
structure EffectStream where
  kind : EffectKind
  allowed : Bool
  /-- Whether no further effect can change the decision. -/
  decided : Bool
  /-- The number of effects that were looked at. -/
  pushed : Nat
  /-- The position of the effect that decided. -/
  explain : Option Nat
  deriving Repr, DecidableEq

namespace EffectStream

/-- Before the first effect. -/
def start (kind : EffectKind) : EffectStream := ⟨kind, kind.default, false, 0, none⟩

/-- Settles the decision on the current effect. -/
def decide (s : EffectStream) (allowed : Bool) : EffectStream :=
  { s with allowed, decided := true, pushed := s.pushed + 1, explain := some s.pushed }

/-- Takes the next effect.  After the decision nothing changes.  Under `allowAndDeny` the first row
that allows explains the decision until one denies. -/
def push (s : EffectStream) (effect : Effect) : EffectStream :=
  if s.decided then s
  else
    match s.kind, effect with
    | .allowOverride, .allow => s.decide true
    | .denyOverride, .deny => s.decide false
    | .allowAndDeny, .deny => s.decide false
    | .allowAndDeny, .allow =>
      { s with
        allowed := true
        pushed := s.pushed + 1
        explain := some (s.explain.getD s.pushed) }
    | .priority, .allow => s.decide true
    | .priority, .deny => s.decide false
    | .subjectPriority, .allow => s.decide true
    | .subjectPriority, .deny => s.decide false
    | _, _ => { s with pushed := s.pushed + 1 }

end EffectStream

/-- What a combining rule says about the effects so far. -/
structure Ruling where
  decided : Bool
  allowed : Bool
  explain : Option Nat
  deriving Repr, DecidableEq

/-- The rule an enforcer combines effects by. -/
inductive Effector where
  /-- The rule the effect kind stands for. -/
  | standard
  /-- A rule on the list of all effects so far, in order. -/
  | custom (rule : EffectKind → List Effect → Ruling)

/-- A combination under way. -/
inductive Combination where
  | standard (stream : EffectStream)
  | custom (rule : List Effect → Ruling) (effects : List Effect)

namespace Combination

/-- Before the first effect. -/
def start (effector : Effector) (kind : EffectKind) : Combination :=
  match effector with
  | .standard => .standard (.start kind)
  | .custom rule => .custom (rule kind) []

def push (effect : Effect) : Combination → Combination
  | .standard stream => .standard (stream.push effect)
  | .custom rule effects => .custom rule (effects ++ [effect])

/-- What is decided so far. -/
def ruling : Combination → Ruling
  | .standard stream => ⟨stream.decided, stream.allowed, stream.explain⟩
  | .custom rule effects => rule effects

end Combination

end AccessControl
