import AccessControl.Effect.Stream
import Mathlib.Data.List.Induction
/-!
# The law of an effect kind

What a kind says about a list of effects taken as a whole: the verdict, and the position of the effect
that explains it.  A stream that takes the effects one by one is at any time where the law is, and has
decided exactly when an effect came up that settles the kind; from then on the law says the same
whatever follows.

    no effect settles → the stream holds the law of the effects so far (`after_eq`)
    the next effect settles → law kind (effects ++ e :: rest) is the same for all rest
                                                                       (`law_of_settles`)
-/

namespace AccessControl

namespace EffectKind

/-- Every kind is read back from its text. -/
theorem ofText_text (kind : EffectKind) : EffectKind.ofText kind.text = .ok kind := by
  cases kind <;> rfl

/-- The verdict on some effects, and the position of the one that explains it. -/
def law (kind : EffectKind) (effects : List Effect) : Bool × Option Nat :=
  let first (e : Effect) := effects.findIdx? (· == e)
  match kind with
  | .allowOverride => ((first .allow).isSome, first .allow)
  | .denyOverride => ((first .deny).isNone, first .deny)
  | .allowAndDeny =>
    ((first .allow).isSome && (first .deny).isNone, (first .deny).or (first .allow))
  | .priority | .subjectPriority =>
    match effects.findIdx? (· != .indeterminate) with
    | some i => (effects[i]? == some .allow, some i)
    | none => (false, none)

/-- Whether an effect leaves nothing to later ones. -/
def settles : EffectKind → Effect → Bool
  | .allowOverride, e => e == .allow
  | .denyOverride, e => e == .deny
  | .allowAndDeny, e => e == .deny
  | .priority, e => e != .indeterminate
  | .subjectPriority, e => e != .indeterminate

/-- From a settling effect on, the law goes by that effect. -/
theorem law_of_settles {kind : EffectKind} {effects : List Effect}
    (hpre : ∀ e ∈ effects, kind.settles e = false) {e : Effect} (he : kind.settles e = true)
    (rest : List Effect) : kind.law (effects ++ e :: rest) = (e == .allow, some effects.length) := by
  have hfirst : (effects ++ e :: rest).findIdx? kind.settles = some effects.length := by
    rw [List.findIdx?_append, List.findIdx?_eq_none_iff.2 hpre, List.findIdx?_cons, if_pos he]
    simp
  cases kind with
  | allowOverride =>
    have hallow : (effects ++ e :: rest).findIdx? (· == .allow) = some effects.length := hfirst
    obtain rfl : e = .allow := by simpa [settles] using he
    simp only [law, hallow, Option.isSome_some]
    rfl
  | denyOverride =>
    have hdeny : (effects ++ e :: rest).findIdx? (· == .deny) = some effects.length := hfirst
    obtain rfl : e = .deny := by simpa [settles] using he
    simp only [law, hdeny, Option.isNone_some]
    rfl
  | allowAndDeny =>
    have hdeny : (effects ++ e :: rest).findIdx? (· == .deny) = some effects.length := hfirst
    obtain rfl : e = .deny := by simpa [settles] using he
    simp only [law, hdeny, Option.isNone_some, Bool.and_false, Option.some_or]
    rfl
  | priority =>
    have hclear : (effects ++ e :: rest).findIdx? (· != .indeterminate) = some effects.length := hfirst
    simp only [law, hclear, List.getElem?_append_right (Nat.le_refl _), Nat.sub_self]
    rfl
  | subjectPriority =>
    have hclear : (effects ++ e :: rest).findIdx? (· != .indeterminate) = some effects.length := hfirst
    simp only [law, hclear, List.getElem?_append_right (Nat.le_refl _), Nat.sub_self]
    rfl

end EffectKind

namespace EffectStream

/-- The stream after some effects. -/
def after (kind : EffectKind) (effects : List Effect) : EffectStream := effects.foldl push (start kind)

theorem after_concat (kind : EffectKind) (effects : List Effect) (e : Effect) :
    after kind (effects ++ [e]) = (after kind effects).push e := by
  rw [after, List.foldl_append]
  rfl

/-- A stream that has not decided holds what the law says about the effects so far. -/
theorem after_eq {kind : EffectKind} {effects : List Effect}
    (h : ∀ e ∈ effects, kind.settles e = false) :
    after kind effects = ⟨kind, (kind.law effects).1, false, effects.length, (kind.law effects).2⟩ := by
  induction effects using List.reverseRecOn with
  | nil => cases kind <;> rfl
  | append_singleton effects e ih =>
    have hpre : ∀ x ∈ effects, kind.settles x = false := fun x hx => h x (List.mem_append_left _ hx)
    have he : kind.settles e = false := h e (by simp)
    rw [after_concat, ih hpre]
    cases kind with
    | allowOverride =>
      have hnone : effects.findIdx? (· == .allow) = none := List.findIdx?_eq_none_iff.2 hpre
      cases e <;> simp_all [push, EffectKind.law, EffectKind.settles]
    | denyOverride =>
      have hnone : effects.findIdx? (· == .deny) = none := List.findIdx?_eq_none_iff.2 hpre
      cases e <;> simp_all [push, EffectKind.law, EffectKind.settles]
    | allowAndDeny =>
      have hnone : effects.findIdx? (· == .deny) = none := List.findIdx?_eq_none_iff.2 hpre
      cases e <;> cases hallow : effects.findIdx? (· == .allow) <;>
        simp_all [push, EffectKind.law, EffectKind.settles]
    | priority =>
      obtain rfl : e = .indeterminate := by simpa [EffectKind.settles] using he
      have hnone : effects.findIdx? (· != .indeterminate) = none := List.findIdx?_eq_none_iff.2 hpre
      have hall : (effects ++ [Effect.indeterminate]).findIdx? (· != .indeterminate) = none :=
        List.findIdx?_eq_none_iff.2 h
      simp only [EffectKind.law, hnone, hall, List.length_append]
      rfl
    | subjectPriority =>
      obtain rfl : e = .indeterminate := by simpa [EffectKind.settles] using he
      have hnone : effects.findIdx? (· != .indeterminate) = none := List.findIdx?_eq_none_iff.2 hpre
      have hall : (effects ++ [Effect.indeterminate]).findIdx? (· != .indeterminate) = none :=
        List.findIdx?_eq_none_iff.2 h
      simp only [EffectKind.law, hnone, hall, List.length_append]
      rfl

/-- A settling effect decides, and the stream holds what the law says whatever follows. -/
theorem after_settled {kind : EffectKind} {effects : List Effect}
    (hpre : ∀ e ∈ effects, kind.settles e = false) {e : Effect} (he : kind.settles e = true)
    (rest : List Effect) :
    after kind (effects ++ [e]) = ⟨kind, (kind.law (effects ++ e :: rest)).1, true,
      effects.length + 1, (kind.law (effects ++ e :: rest)).2⟩ := by
  rw [after_concat, after_eq hpre, EffectKind.law_of_settles hpre he]
  cases kind <;> cases e <;> first | rfl | simp [EffectKind.settles] at he

end EffectStream

end AccessControl
