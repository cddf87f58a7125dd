import AccessControl.Proofs.Effect.Law
/-!
# When a combination is decided

A stream reports that it has decided after an effect that settles its kind, and after no other one.  That
is the earliest and the latest moment: before it some next effect still changes what the stream says, and
from then on nothing does.

    a stream is decided when one of its effects settles the kind        (`decided_iff`)
    decided or not, it holds the law of all effects pushed so far       (`after_law`)
    undecided, a settling effect changes the law                        (`exists_law_ne`)
    the position that explains is one of an effect that says the same   (`law_explained`)
-/

namespace AccessControl

namespace EffectKind

/-- What a kind asks of some effects to allow. -/
def AllowsOn (effects : List Effect) : EffectKind → Prop
  | .allowOverride => .allow ∈ effects
  | .denyOverride => .deny ∉ effects
  | .allowAndDeny => .allow ∈ effects ∧ .deny ∉ effects
  | .priority | .subjectPriority =>
    ∃ i : Nat, effects[i]? = some .allow ∧ ∀ j < i, effects[j]? = some .indeterminate

/-- The effect that says what a verdict says. -/
def saying (allowed : Bool) : Effect := if allowed then .allow else .deny

variable {kind : EffectKind} {effects : List Effect} {e : Effect} {i : Nat}

theorem findIdx?_isSome_iff_mem : (effects.findIdx? (· == e)).isSome = true ↔ e ∈ effects := by
  rw [List.findIdx?_isSome, List.any_eq_true]
  constructor
  · rintro ⟨x, hx, heq⟩
    rwa [← eq_of_beq heq]
  · intro he
    exact ⟨e, he, beq_self_eq_true e⟩

theorem getElem?_of_findIdx? (h : effects.findIdx? (· == e) = some i) : effects[i]? = some e := by
  obtain ⟨hlt, he, -⟩ := List.findIdx?_eq_some_iff_getElem.1 h
  rw [List.getElem?_eq_getElem hlt, eq_of_beq he]

/-- The first clear effect, with unclear ones before it. -/
theorem findIdx?_clear_iff : effects.findIdx? (· != .indeterminate) = some i ↔
    (∃ e, effects[i]? = some e ∧ e ≠ .indeterminate) ∧
      ∀ j < i, effects[j]? = some .indeterminate := by
  rw [List.findIdx?_eq_some_iff_getElem]
  constructor
  · rintro ⟨hlt, hclear, hbefore⟩
    refine ⟨⟨effects[i], List.getElem?_eq_getElem hlt, by simpa using hclear⟩, fun j hj => ?_⟩
    rw [List.getElem?_eq_getElem (by omega)]
    simpa using hbefore j hj
  · rintro ⟨⟨e, hget, hne⟩, hbefore⟩
    obtain ⟨hlt, rfl⟩ := List.getElem?_eq_some_iff.1 hget
    refine ⟨hlt, by simpa using hne, fun j hj => ?_⟩
    have heq := hbefore j hj
    rw [List.getElem?_eq_getElem (by omega), Option.some.injEq] at heq
    simpa using heq

/-- The law of priorities allows when the first clear effect does. -/
theorem law_priority_iff : (priority.law effects).1 = true ↔ priority.AllowsOn effects := by
  constructor
  · intro hallow
    cases hfind : effects.findIdx? (· != .indeterminate) with
    | none => simp [law, hfind] at hallow
    | some i =>
      rw [law, hfind] at hallow
      exact ⟨i, eq_of_beq hallow, (findIdx?_clear_iff.1 hfind).2⟩
  · rintro ⟨i, hallow, hbefore⟩
    have hfind : effects.findIdx? (· != .indeterminate) = some i :=
      findIdx?_clear_iff.2 ⟨⟨.allow, hallow, by decide⟩, hbefore⟩
    rw [law, hfind]
    exact beq_iff_eq.2 hallow

/-- The verdict of the law is what the kind asks for. -/
theorem law_allows_iff : (kind.law effects).1 = true ↔ kind.AllowsOn effects := by
  cases kind with
  | allowOverride => exact findIdx?_isSome_iff_mem
  | denyOverride =>
    rw [law, Option.isNone_iff_eq_none, ← Option.not_isSome_iff_eq_none, findIdx?_isSome_iff_mem]
    rfl
  | allowAndDeny =>
    rw [law, Bool.and_eq_true, findIdx?_isSome_iff_mem, Option.isNone_iff_eq_none,
      ← Option.not_isSome_iff_eq_none, findIdx?_isSome_iff_mem]
    rfl
  | priority | subjectPriority => exact law_priority_iff

/-- What explains a verdict says the same. -/
theorem law_explained (h : (kind.law effects).2 = some i) :
    effects[i]? = some (saying (kind.law effects).1) := by
  have hclear : effects.findIdx? (· != .indeterminate) = some i →
      effects[i]? = some (saying (effects[i]? == some .allow)) := by
    intro hfind
    obtain ⟨⟨e, hget, hne⟩, -⟩ := findIdx?_clear_iff.1 hfind
    rw [hget]
    cases e with
    | allow | deny => rfl
    | indeterminate => exact absurd rfl hne
  cases kind with
  | allowOverride =>
    have hallow : effects.findIdx? (· == .allow) = some i := h
    simp only [law, hallow]
    exact getElem?_of_findIdx? hallow
  | denyOverride =>
    have hdeny : effects.findIdx? (· == .deny) = some i := h
    simp only [law, hdeny]
    exact getElem?_of_findIdx? hdeny
  | allowAndDeny =>
    -- a deny explains the verdict as soon as there is one
    cases hdeny : effects.findIdx? (· == .deny) with
    | some j =>
      obtain rfl : j = i := by simpa [law, hdeny] using h
      simp only [law, hdeny, Option.isNone_some, Bool.and_false]
      exact getElem?_of_findIdx? hdeny
    | none =>
      have hallow : effects.findIdx? (· == .allow) = some i := by simpa [law, hdeny] using h
      simp only [law, hdeny, hallow]
      exact getElem?_of_findIdx? hallow
  | priority | subjectPriority =>
    cases hfind : effects.findIdx? (· != .indeterminate) with
    | none => simp [law, hfind] at h
    | some j =>
      obtain rfl : j = i := by simpa [law, hfind] using h
      simp only [law, hfind]
      exact hclear hfind

/-- Every kind has an effect that leaves nothing to later ones. -/
theorem exists_settles (kind : EffectKind) : ∃ e, kind.settles e = true := by
  cases kind with
  | allowOverride | priority | subjectPriority => exact ⟨.allow, rfl⟩
  | denyOverride | allowAndDeny => exact ⟨.deny, rfl⟩

/-- As long as nothing settled, the next effect can change what the law says. -/
theorem exists_law_ne (hpre : ∀ e ∈ effects, kind.settles e = false) :
    ∃ e, kind.law (effects ++ [e]) ≠ kind.law effects := by
  obtain ⟨e, he⟩ := exists_settles kind
  refine ⟨e, fun heq => ?_⟩
  rw [law_of_settles hpre he []] at heq
  -- the new effect would explain the verdict on the effects before it
  have hlast := law_explained (congrArg Prod.snd heq).symm
  rw [List.getElem?_eq_none (Nat.le_refl _)] at hlast
  exact absurd hlast (by simp)

end EffectKind

namespace EffectStream

variable {kind : EffectKind} {effects : List Effect} {e : Effect}

/-- Some effects settle nothing, or there is a first one that does. -/
theorem settles_cases (kind : EffectKind) (effects : List Effect) :
    (∀ e ∈ effects, kind.settles e = false) ∨
      ∃ before e rest, effects = before ++ e :: rest ∧ kind.settles e = true ∧
        ∀ x ∈ before, kind.settles x = false := by
  cases hfind : effects.find? kind.settles with
  | none => exact Or.inl fun e he => by simpa using List.find?_eq_none.1 hfind e he
  | some e =>
    obtain ⟨he, before, rest, heq, hbefore⟩ := List.find?_eq_some_iff_append.1 hfind
    exact Or.inr ⟨before, e, rest, heq, he, fun x hx => by simpa using hbefore x hx⟩

theorem foldl_push_of_decided {s : EffectStream} (h : s.decided = true) (effects : List Effect) :
    effects.foldl push s = s := by
  induction effects with
  | nil => rfl
  | cons e rest ih =>
    have hpush : s.push e = s := if_pos h
    rw [List.foldl_cons, hpush, ih]

theorem after_append (kind : EffectKind) (effects rest : List Effect) :
    after kind (effects ++ rest) = rest.foldl push (after kind effects) :=
  List.foldl_append

/-- After a settling effect the stream stays as it is. -/
theorem after_of_settles (hpre : ∀ x ∈ effects, kind.settles x = false)
    (he : kind.settles e = true) (rest : List Effect) :
    after kind (effects ++ e :: rest) = ⟨kind, (kind.law (effects ++ e :: rest)).1, true,
      effects.length + 1, (kind.law (effects ++ e :: rest)).2⟩ := by
  have hsettled := after_settled hpre he rest
  have hdecided : (after kind (effects ++ [e])).decided = true := by rw [hsettled]
  rw [← hsettled, List.append_cons, after_append, foldl_push_of_decided hdecided]

/-- A stream is decided when one of its effects settles the kind. -/
theorem decided_iff :
    (after kind effects).decided = true ↔ ∃ e ∈ effects, kind.settles e = true := by
  rcases settles_cases kind effects with hnone | ⟨before, e, rest, rfl, he, hbefore⟩
  · rw [after_eq hnone]
    refine ⟨fun h => absurd h Bool.false_ne_true, ?_⟩
    rintro ⟨e, hmem, he⟩
    rw [hnone e hmem] at he
    exact he
  · rw [after_of_settles hbefore he rest]
    exact ⟨fun _ => ⟨e, by simp, he⟩, fun _ => rfl⟩

/-- Decided or not, a stream holds what the law says of all effects so far. -/
theorem after_law (kind : EffectKind) (effects : List Effect) :
    ((after kind effects).allowed, (after kind effects).explain) = kind.law effects := by
  rcases settles_cases kind effects with hnone | ⟨before, e, rest, rfl, he, hbefore⟩
  · rw [after_eq hnone]
  · rw [after_of_settles hbefore he rest]

/-- A stream is decided when the law will stay what it is. -/
theorem decided_iff_law :
    (after kind effects).decided = true ↔ ∀ rest, kind.law (effects ++ rest) = kind.law effects := by
  constructor
  · intro h rest
    rw [← after_law, ← after_law, after_append, foldl_push_of_decided h]
  · intro hsame
    by_contra hundecided
    have hnone : ∀ e ∈ effects, kind.settles e = false := by
      intro e he
      by_contra hsettles
      exact hundecided (decided_iff.2 ⟨e, he, by simpa using hsettles⟩)
    obtain ⟨e, hne⟩ := EffectKind.exists_law_ne hnone
    exact hne (hsame [e])

/-! ## Top theorem (proved from the lemmas above) -/

/-- **A stream decides exactly when nothing can change any more.**  Whatever was pushed, also behind the
decision: the last push reported that the stream has decided iff no further effects change the verdict or
what explains it, and from then on the whole stream stays as it is.  The verdict and what explains it are
those of the law over all effects pushed, so the verdict is what the kind asks for, and the effect that
explains it was pushed and says the same. -/
theorem after_decided_iff (kind : EffectKind) (effects : List Effect) :
    let s := after kind effects
    (s.decided = true ↔ ∀ rest, (after kind (effects ++ rest)).allowed = s.allowed ∧
      (after kind (effects ++ rest)).explain = s.explain) ∧
    (s.decided = true → ∀ rest, after kind (effects ++ rest) = s) ∧
    (s.allowed, s.explain) = kind.law effects ∧
    (s.allowed = true ↔ kind.AllowsOn effects) ∧
    ∀ i, s.explain = some i → effects[i]? = some (EffectKind.saying s.allowed) := by
  intro s
  have hlaw : (s.allowed, s.explain) = kind.law effects := after_law kind effects
  have hallowed : s.allowed = (kind.law effects).1 := congrArg Prod.fst hlaw
  have hexplain : s.explain = (kind.law effects).2 := congrArg Prod.snd hlaw
  refine ⟨?_, fun h rest => ?_, hlaw, ?_, fun i hi => ?_⟩
  · rw [decided_iff_law]
    refine forall_congr' fun rest => ?_
    rw [← after_law, ← hlaw, Prod.mk.injEq]
  · rw [after_append, foldl_push_of_decided h]
  · rw [hallowed, EffectKind.law_allows_iff]
  · rw [hallowed]
    exact EffectKind.law_explained (hexplain.symm.trans hi)

/-- A deny behind the allow that explains the verdict so far still changes it, and ends the stream. -/
example : let s := after .allowAndDeny [.indeterminate, .allow, .deny, .allow]
    (s.allowed, s.explain, s.decided) = (false, some 2, true) := rfl

end EffectStream

end AccessControl
