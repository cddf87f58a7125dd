import AccessControl.Proofs.Enforcer.Evaluations
import AccessControl.Proofs.Enforcer.OtherModels
/-!
# Fewer rows grant no more

Where one row that allows is enough, a request is allowed when some row grants it: its matcher holds for
the row, and the row allows.  Whether a row grants a request has nothing to do with the other rows, so a
request that is allowed with fewer rows is allowed with all of them.  There is one exception, by design: a
definition without rows is decided as if it had one whose fields are all empty, and the matcher may hold for
that row and for none of those that were there.

    e.Allows ctx request ↔ ∃ row ∈ tried …, e.Grants ctx request row   (`Valid.allows_iff`)
    the same definitions, functions and links → the same grants        (`Grants.of_bare`)
    fewer rows allow no more, unless none is left                      (`allows_of_revokes`)
    the last row that goes can grant a request                         (`not_always_allows_of_revokes`)
-/

namespace AccessControl

/-- The rows that are tried: without any, one whose fields are all empty. -/
def tried (rows : List Row) : List Row := if rows = [] then [[]] else rows

/-! ## Questions -/

namespace Question

variable (q : Question) (program : Program) {scope : Scope} {state : EvalState}

/-- A row without an effect field allows. -/
theorem effectOf_nil : q.effectOf [] = .allow := by
  unfold effectOf
  cases q.policy.fieldIndex (q.policy.key ++ "_eft") <;> rfl

/-- Where one row that allows is enough, a request is allowed when some row that is tried matches and
allows. -/
theorem allowed_decide_iff (h : state.programs.FromScratch scope) (hkind : q.kind = .allowOverride) :
    (q.decide program scope .standard state).1.allowed = true ↔
      ∃ row ∈ tried q.policy.rows,
        program.holds scope (q.bindings row) = true ∧ q.effectOf row = .allow := by
  unfold tried
  by_cases hrows : q.policy.rows = []
  · have htest := (matchesRow_eq q program h []).1
    have hblank : (q.decide program scope .standard state).1.allowed =
        program.holds scope (q.bindings []) := by
      unfold decide
      rw [if_pos (by simp [hrows]), ← htest, hkind]
      rcases q.matchesRow program scope [] state with ⟨_ | _, next⟩ <;> rfl
    rw [hblank, if_pos hrows]
    simp [effectOf_nil]
  · rw [q.decide_eq_fullScan program h hrows, hkind, allowed_fullScan_allowOverride, if_neg hrows]
    simp only [List.mem_filter, and_assoc]

end Question

namespace Model

/-- What a question is made of. -/
theorem question_cases {m : Model} {ctx : Context} {request : List Value} {q : Question}
    (h : m.question ctx request = .ok q) : ∃ r effect matcher, m.find? "r" ctx.request = some r ∧
      request.length = r.fields.length ∧ m.find? "p" ctx.policy = some q.policy ∧
      m.find? "e" ctx.effect = some effect ∧ EffectKind.ofText effect.value = .ok q.kind ∧
      m.find? "m" ctx.matcher = some matcher ∧
      q = ⟨r.fields, request, q.policy, q.kind, matcher.value⟩ := by
  unfold question at h
  split at h
  · simp at h
  · next r hr =>
    split at h
    · simp at h
    · next harity =>
      split at h
      · simp at h
      · next p hp =>
        split at h
        · simp at h
        · next effect heffect =>
          split at h
          · simp at h
          · next kind hkind =>
            split at h
            · simp at h
            · next matcher hmatcher =>
              obtain rfl := Except.ok.inj h
              exact ⟨r, effect, matcher, find?_of_find hr, not_not.1 harity, find?_of_find hp,
                find?_of_find heffect, hkind, find?_of_find hmatcher, rfl⟩

/-- Models with the same definitions ask the same, up to the rows. -/
theorem question_of_bare {m k : Model} (h : k.bare = m.bare) {ctx : Context} {request : List Value}
    {q : Question} (hq : k.question ctx request = .ok q) :
    ∃ p, p.bare = q.policy.bare ∧ m.question ctx request = .ok { q with policy := p } := by
  obtain ⟨r, effect, matcher, hr, harity, hp, heffect, hkind, hmatcher, heq⟩ := question_cases hq
  obtain ⟨r', hr', hrbare⟩ := find?_of_bare h hr
  obtain ⟨p', hp', hpbare⟩ := find?_of_bare h hp
  obtain ⟨effect', heffect', hebare⟩ := find?_of_bare h heffect
  obtain ⟨matcher', hmatcher', hmbare⟩ := find?_of_bare h hmatcher
  rw [← Definition.fields_eq hrbare] at harity
  rw [← Definition.value_eq hebare] at hkind
  refine ⟨p', hpbare, ?_⟩
  rw [question_eq hr' harity hp' heffect' hkind hmatcher', heq, Definition.fields_eq hrbare,
    Definition.value_eq hmbare]

end Model

namespace Enforcer

variable {σ : Type} {ctx : Context} {request : List Value}

/-! ## Grants -/

/-- Whether a request is decided, and allowed. -/
def Allows (e : Enforcer σ) (ctx : Context) (request : List Value) : Prop :=
  ∃ d, (e.enforce ctx request).1 = .ok d ∧ d.allowed = true

/-- Whether a row grants a request: the matcher holds for it, and it allows. -/
def Grants (e : Enforcer σ) (ctx : Context) (request : List Value) (row : Row) : Prop :=
  ∃ q program, e.model.question ctx request = .ok q ∧
    Program.ofSource e.scope (joinReferences q.matcher) = .ok program ∧
    program.holds e.scope (q.bindings row) = true ∧ q.effectOf row = .allow

/-- Whether a row grants a request does not depend on the rows that are there. -/
theorem Grants.of_bare {e k : Enforcer σ} {row : Row} (h : k.Grants ctx request row)
    (hbare : k.model.bare = e.model.bare) (hscope : k.scope = e.scope) : e.Grants ctx request row := by
  obtain ⟨q, program, hquestion, hcompile, hholds, heffect⟩ := h
  obtain ⟨p, hp, hasked⟩ := Model.question_of_bare hbare hquestion
  rw [hscope] at hcompile hholds
  refine ⟨_, program, hasked, hcompile, ?_, ?_⟩
  · unfold Question.bindings
    rw [Definition.fields_eq hp]
    exact hholds
  · unfold Question.effectOf Definition.fieldIndex
    rw [Definition.fields_eq hp, Definition.key_eq hp]
    exact heffect

/-- From one state to another with the same definitions, functions, role links and settings, and with rows of
a policy definition that were there. -/
structure Revokes (e k : Enforcer σ) (name : String) : Prop where
  bare : k.model.bare = e.model.bare
  functions : k.functions = e.functions
  managers : k.managers = e.managers
  config : k.config = e.config
  effector : k.effector = e.effector
  rows : ∀ row ∈ k.model.rows "p" name, row ∈ e.model.rows "p" name

theorem Revokes.scope_eq {e k : Enforcer σ} {name : String} (h : e.Revokes k name) :
    k.scope = e.scope := by
  unfold scope
  rw [h.functions, h.managers]

/-- Without enforcement every request is allowed. -/
theorem allows_of_disabled {e : Enforcer σ} (h : e.config.enabled = false) : e.Allows ctx request := by
  unfold Allows enforce
  rw [h]
  exact ⟨_, rfl, rfl⟩

theorem not_allows {e : Enforcer σ} {d : Decision} (h : (e.enforce ctx request).1 = .ok d)
    (hd : d.allowed = false) : ¬ e.Allows ctx request := by
  rintro ⟨other, hother, hallowed⟩
  obtain rfl := Except.ok.inj (h.symm.trans hother)
  simp [hd] at hallowed

/-- A request that is decided asks a question whose matcher compiles. -/
theorem Valid.asks_of_enforce {e : Enforcer σ} (he : e.Valid) (hon : e.config.enabled = true)
    {d : Decision} (h : (e.enforce ctx request).1 = .ok d) :
    ∃ q program, e.model.question ctx request = .ok q ∧
      Program.ofSource e.scope (joinReferences q.matcher) = .ok program := by
  unfold enforce at h
  rw [if_pos hon] at h
  split at h
  · simp at h
  · next q hquestion =>
    have hresult := (EvalM.gives_compile q.matcher e.evaluation he.programs).1
    split at h
    · simp at h
    · next program state hrun =>
      rw [hrun] at hresult
      exact ⟨q, program, hquestion, hresult.symm⟩

/-- Where one row that allows is enough, a request is allowed when some row that is tried grants it. -/
theorem Valid.allows_iff {e : Enforcer σ} (he : e.Valid) (hon : e.config.enabled = true)
    (heffector : e.effector = .standard) {effect : Definition}
    (heffect : e.model.find? "e" ctx.effect = some effect)
    (hkind : EffectKind.ofText effect.value = .ok .allowOverride) :
    e.Allows ctx request ↔
      ∃ row ∈ tried (e.model.rows "p" ctx.policy), e.Grants ctx request row := by
  have hasked : ∀ q, e.model.question ctx request = .ok q →
      q.kind = .allowOverride ∧ e.model.rows "p" ctx.policy = q.policy.rows := by
    intro q hquestion
    obtain ⟨-, effect', -, -, -, hp, heffect', hkind', -⟩ := Model.question_cases hquestion
    obtain rfl := Option.some.inj (heffect.symm.trans heffect')
    exact ⟨Except.ok.inj (hkind'.symm.trans hkind), Model.rows_of_find? hp⟩
  constructor
  · rintro ⟨d, hd, hallowed⟩
    obtain ⟨q, program, hquestion, hcompile⟩ := he.asks_of_enforce hon hd
    obtain ⟨state, hright, hdecision⟩ := he.enforce_decide hon hquestion hcompile
    obtain ⟨hq, hrows⟩ := hasked q hquestion
    obtain rfl := Except.ok.inj (hdecision.symm.trans hd)
    rw [heffector, q.allowed_decide_iff program hright hq] at hallowed
    obtain ⟨row, hrow, hholds, hallow⟩ := hallowed
    exact ⟨row, hrows ▸ hrow, q, program, hquestion, hcompile, hholds, hallow⟩
  · rintro ⟨row, hrow, q, program, hquestion, hcompile, hholds, hallow⟩
    obtain ⟨state, hright, hdecision⟩ := he.enforce_decide hon hquestion hcompile
    obtain ⟨hq, hrows⟩ := hasked q hquestion
    refine ⟨_, hdecision, ?_⟩
    rw [heffector, q.allowed_decide_iff program hright hq]
    exact ⟨row, hrows ▸ hrow, hholds, hallow⟩

/-! ## One run -/

/-- A definition with one row, and with another one. -/
def twoAllowed : Enforcer MemoryStore :=
  { model := allowedModel.modify "p" "p" (·.insertAll [["ann"], ["bob"]])
    store := { lines := [["p", "ann"], ["p", "bob"]] } }

/-- A definition without rows. -/
def noneAllowed : Enforcer MemoryStore := { model := allowedModel, store := {} }

theorem reachable_noneAllowed : Reachable Made (fun _ _ => True) noneAllowed :=
  .start ⟨allowedModel, {}, {}, ⟨_, rfl⟩, rfl⟩

set_option maxRecDepth 20000 in
theorem reachable_twoAllowed : Reachable Made (fun _ _ => True) twoAllowed := by
  have hadd : (noneAllowed.perform (.addRows "p" "p" [["ann"], ["bob"]])).2 = twoAllowed :=
    perform_addRows (reachable_noneAllowed.valid fun _ h => h) (Or.inl rfl) rfl rfl
      (persist_storeRows rfl) (by decide) rfl
  exact hadd ▸ reachable_noneAllowed.step (.addRows "p" "p" [["ann"], ["bob"]]) trivial

/-- The rule that allows a request when no row matches. -/
def unmatched : Effector := .custom fun _ effects => ⟨true, effects.isEmpty, none⟩

/-- The question of one subject over some rows. -/
def subjectQuestion (subject : String) (rows : List Row) : Question :=
  ⟨["r_sub"], [.str subject], (Definition.make "p" "p" "sub").insertAll rows, .allowOverride,
    "r.sub == p.sub"⟩

theorem question_allowedModel (subject : String) (rows : List Row) :
    (allowedModel.modify "p" "p" (·.insertAll rows)).question {} [.str subject] =
      .ok (subjectQuestion subject rows) := by
  let ctx : Context := {}
  let m := allowedModel.modify "p" "p" (·.insertAll rows)
  have hothers : ∀ sec, "p" ≠ sec → ∀ name, m.find? sec name = allowedModel.find? sec name := by
    intro sec hsec name
    rw [Model.find?_modify, if_neg fun h => hsec h.1]
  have hr : m.find? "r" ctx.request = some (.make "r" "r" "sub") := hothers "r" (by decide) "r"
  have hp : allowedModel.find? "p" "p" = some (.make "p" "p" "sub") := rfl
  have hrows : m.find? "p" ctx.policy = some ((Definition.make "p" "p" "sub").insertAll rows) :=
    Model.find?_modify_self hp _
  have heffect : m.find? "e" ctx.effect = some (.make "e" "e" EffectKind.allowOverride.text) :=
    hothers "e" (by decide) "e"
  have hkind : EffectKind.ofText (Definition.make "e" "e" EffectKind.allowOverride.text).value =
      .ok .allowOverride := EffectKind.ofText_text .allowOverride
  have hmatcher : m.find? "m" ctx.matcher = some (.make "m" "m" "r.sub == p.sub") :=
    hothers "m" (by decide) "m"
  exact Model.question_eq hr rfl hrows heffect hkind hmatcher

/-- What a request of one subject comes to over some rows. -/
theorem enforce_allowedModel {e : Enforcer σ} (he : e.Valid) (hon : e.config.enabled = true)
    {rows : List Row} (hmodel : e.model = allowedModel.modify "p" "p" (·.insertAll rows))
    (subject : String) : (e.enforce {} [.str subject]).1 =
      .ok ((subjectQuestion subject rows).decide sameSubject e.scope e.effector {}).1 := by
  have hquestion := hmodel ▸ question_allowedModel subject rows
  obtain ⟨state, hright, hdecision⟩ := he.enforce_decide hon hquestion (ofSource_sameSubject _)
  rw [hdecision]
  exact congrArg Except.ok
    (Question.decide_congr _ _ hright (ProgramCache.fromScratch_empty e.scope) e.effector)

/-! ## Top theorem (proved from the lemmas above) -/

variable [PolicyStore σ]

/-- **Revocation grants nothing while a row is left.**  In every two states that differ in their rows only,
with the rule of the effect kind and an effect for which one row that allows is enough: when all rows of the
policy definition in the one are rows of it in the other, and the one allows a request, so does the other,
unless the one has no rows left and a row whose fields are all empty grants the request.  That row decides
where there are no rows. -/
theorem allows_of_revokes {e k : Enforcer σ} (he : Reachable Made (fun _ _ => True) e)
    (hk : Reachable Made (fun _ _ => True) k) {ctx : Context} (h : e.Revokes k ctx.policy)
    (hstandard : e.effector = .standard) {effect : Definition}
    (heffect : e.model.find? "e" ctx.effect = some effect)
    (hkind : EffectKind.ofText effect.value = .ok .allowOverride) (request : List Value) :
    (k.Allows ctx request →
      e.Allows ctx request ∨ k.model.rows "p" ctx.policy = [] ∧ k.Grants ctx request []) ∧
    (k.config.enabled = true → k.model.rows "p" ctx.policy = [] →
      (k.Allows ctx request ↔ k.Grants ctx request [])) := by
  have hevalid := he.valid fun _ h => h
  have hkvalid := hk.valid fun _ h => h
  obtain ⟨effect', heffect', hvalue⟩ := Model.find?_of_bare h.bare.symm heffect
  have hkind' : EffectKind.ofText effect'.value = .ok .allowOverride := by
    rw [Definition.value_eq hvalue, hkind]
  have hallows : k.config.enabled = true → (k.Allows ctx request ↔
      ∃ row ∈ tried (k.model.rows "p" ctx.policy), k.Grants ctx request row) := fun hon =>
    hkvalid.allows_iff hon (h.effector.trans hstandard) heffect' hkind'
  constructor
  · intro hallowed
    cases hon : k.config.enabled with
    | false => exact Or.inl (allows_of_disabled (h.config ▸ hon))
    | true =>
      obtain ⟨row, hrow, hgrants⟩ := (hallows hon).1 hallowed
      unfold tried at hrow
      split at hrow
      · next hempty =>
        rw [List.mem_singleton] at hrow
        exact Or.inr ⟨hempty, hrow ▸ hgrants⟩
      · have hthere := h.rows row hrow
        refine Or.inl ((hevalid.allows_iff (h.config ▸ hon) hstandard heffect hkind).2
          ⟨row, ?_, hgrants.of_bare h.bare h.scope_eq⟩)
        rwa [tried, if_neg (List.ne_nil_of_mem hthere)]
  · intro hon hempty
    rw [hallows hon, hempty]
    simp [tried]

set_option maxRecDepth 20000 in
/-- What one row allows, two rows allow. -/
theorem allows_of_revokes_one : ∃ e k : Enforcer MemoryStore, Reachable Made (fun _ _ => True) e ∧
    Reachable Made (fun _ _ => True) k ∧ e.Revokes k "p" ∧ k.model.rows "p" "p" = [["ann"]] ∧
      k.Allows {} [.str "ann"] ∧ e.Allows {} [.str "ann"] := by
  let ctx : Context := {}
  have hrevokes : twoAllowed.Revokes oneAllowed ctx.policy := ⟨rfl, rfl, rfl, rfl, rfl, by decide⟩
  have hallows : oneAllowed.Allows {} [.str "ann"] :=
    ⟨_, enforce_allowedModel (reachable_oneAllowed.valid fun _ h => h) rfl rfl "ann", by decide⟩
  obtain ⟨hmore, -⟩ := allows_of_revokes reachable_twoAllowed reachable_oneAllowed hrevokes rfl rfl
    (EffectKind.ofText_text .allowOverride) [.str "ann"]
  exact ⟨_, _, reachable_twoAllowed, reachable_oneAllowed, hrevokes, rfl, hallows,
    (hmore hallows).resolve_right fun hnone => absurd hnone.1 (by decide)⟩

set_option maxRecDepth 20000 in
/-- A request of nobody is denied while there is a row, and allowed after the last row went; and with another
rule, that allows what no row is for, a request is allowed after its row went. -/
theorem not_always_allows_of_revokes :
    (¬ ∀ (e k : Enforcer MemoryStore) (ctx : Context) (effect : Definition) (request : List Value),
      Reachable Made (fun _ _ => True) e → Reachable Made (fun _ _ => True) k →
        e.Revokes k ctx.policy → e.effector = .standard →
          e.model.find? "e" ctx.effect = some effect →
            EffectKind.ofText effect.value = .ok .allowOverride →
              k.Allows ctx request → e.Allows ctx request) ∧
    ¬ ∀ (e k : Enforcer MemoryStore) (ctx : Context) (effect : Definition) (request : List Value),
      Reachable Made (fun _ _ => True) e → Reachable Made (fun _ _ => True) k →
        e.Revokes k ctx.policy → k.model.rows "p" ctx.policy ≠ [] →
          e.model.find? "e" ctx.effect = some effect →
            EffectKind.ofText effect.value = .ok .allowOverride →
              k.Allows ctx request → e.Allows ctx request := by
  constructor
  · intro hall
    have hbefore := enforce_allowedModel (reachable_oneAllowed.valid fun _ h => h) rfl rfl ""
    have hnone : noneAllowed.model = allowedModel.modify "p" "p" (·.insertAll []) :=
      (allowedModel.modify_same "p" "p").symm
    have hafter := enforce_allowedModel (reachable_noneAllowed.valid fun _ h => h) rfl hnone ""
    exact not_allows hbefore (by decide) (hall _ _ {} _ _ reachable_oneAllowed reachable_noneAllowed
      ⟨rfl, rfl, rfl, rfl, rfl, by decide⟩ rfl rfl
      (EffectKind.ofText_text .allowOverride) ⟨_, hafter, by decide⟩)
  · intro hall
    have hone := reachable_oneAllowed.step (.setEffector unmatched) trivial
    have htwo := reachable_twoAllowed.step (.setEffector unmatched) trivial
    have hbefore := enforce_allowedModel (htwo.valid fun _ h => h) rfl rfl "bob"
    have hafter := enforce_allowedModel (hone.valid fun _ h => h) rfl rfl "bob"
    exact not_allows hbefore (by decide) (hall _ _ {} _ _ htwo hone
      ⟨rfl, rfl, rfl, rfl, rfl, by decide⟩ (by decide) rfl
      (EffectKind.ofText_text .allowOverride) ⟨_, hafter, by decide⟩)

end Enforcer

end AccessControl
