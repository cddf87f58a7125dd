import AccessControl.Proofs.Enforcer.Valid
/-!
# What is remembered of evaluations does not matter

An enforcer remembers compiled programs and traces.  No change of rows, links or store looks at them: it
answers the same and leaves the same with others in their place (`carry`).  A decision looks up compiled
programs, and with right ones it is the same whichever they are.  So two enforcers that are alike but for
evaluations, and valid, answer alike forever.

    (e.withEvaluation v).addRows sec name rows = carry v (e.addRows sec name rows)
                                                                       (`addRows_withEvaluation`)
    scans from right programs end alike                                (`scanRows_congr`)
    alike enforcers decide alike                                       (`Alike.enforce`)
    alike enforcers stay alike                                         (`Alike.perform`)
-/

namespace AccessControl

namespace Enforcer

variable {σ α : Type}

/-- The enforcer with another evaluation. -/
def withEvaluation (e : Enforcer σ) (v : EvalState) : Enforcer σ := { e with evaluation := v }

@[simp] theorem withEvaluation_model (e : Enforcer σ) (v : EvalState) :
    (e.withEvaluation v).model = e.model := rfl

@[simp] theorem withEvaluation_store (e : Enforcer σ) (v : EvalState) :
    (e.withEvaluation v).store = e.store := rfl

@[simp] theorem withEvaluation_scope (e : Enforcer σ) (v : EvalState) :
    (e.withEvaluation v).scope = e.scope := rfl

@[simp] theorem withEvaluation_evaluation (e : Enforcer σ) (v : EvalState) :
    (e.withEvaluation v).evaluation = v := rfl

@[simp] theorem withEvaluation_isFiltered [PolicyStore σ] (e : Enforcer σ) (v : EvalState) :
    (e.withEvaluation v).isFiltered = e.isFiltered := rfl

/-- An answer with the enforcer after it, with another evaluation. -/
def carry (v : EvalState) (answer : α × Enforcer σ) : α × Enforcer σ :=
  (answer.1, answer.2.withEvaluation v)

/-! ## Links and parts of a change -/

section

variable (e : Enforcer σ) (v : EvalState) {sec name : String}

theorem followRows_withEvaluation (change : LinkChange) (rows : List Row) :
    (e.withEvaluation v).followRows sec name change rows =
      carry v (e.followRows sec name change rows) := by
  unfold followRows linkRows withEvaluation
  dsimp only
  split
  · split <;> rfl
  · rfl

theorem persist_withEvaluation (change : σ → Except StoreError α × σ) :
    (e.withEvaluation v).persist change = carry v (e.persist change) := by
  unfold persist withEvaluation
  dsimp only
  split <;> rfl

theorem finishChange_withEvaluation (change : Except Error (Model × Bool)) :
    (e.withEvaluation v).finishChange change = carry v (e.finishChange change) := by
  unfold finishChange
  split <;> rfl

theorem relinkRow_withEvaluation (old new : Row) :
    (e.withEvaluation v).relinkRow sec name old new = carry v (e.relinkRow sec name old new) := by
  unfold relinkRow
  rw [followRows_withEvaluation]
  rcases e.followRows sec name .remove [old] with ⟨_ | _, l⟩
  · rfl
  · dsimp only [carry]
    rw [followRows_withEvaluation]
    rcases l.followRows sec name .add [new] with ⟨_ | _, k⟩
    · dsimp only [carry]
      rw [followRows_withEvaluation]
      rcases k.followRows sec name .add [old] with ⟨_ | _, k⟩ <;> rfl
    · rfl

theorem unlinkRow_withEvaluation (old new : Row) :
    (e.withEvaluation v).unlinkRow sec name old new = carry v (e.unlinkRow sec name old new) := by
  unfold unlinkRow
  rw [followRows_withEvaluation]
  rcases e.followRows sec name .remove [new] with ⟨_ | _, l⟩
  · rfl
  · dsimp only [carry]
    rw [followRows_withEvaluation]
    rfl

theorem buildLinks_withEvaluation :
    (e.withEvaluation v).buildLinks = carry v e.buildLinks := rfl

theorem rebuildLinks_withEvaluation :
    (e.withEvaluation v).rebuildLinks name = carry v (e.rebuildLinks name) := by
  unfold rebuildLinks withEvaluation
  dsimp only
  split <;> rfl

/-- A model that is taken, or not. -/
theorem install_withEvaluation (m : Model) :
    (e.withEvaluation v).install m = carry v (e.install m) := by
  unfold install
  dsimp only
  have hbuild : ({ e.withEvaluation v with model := m.sorted } : Enforcer σ).buildLinks =
      carry v ({ e with model := m.sorted } : Enforcer σ).buildLinks := rfl
  rw [hbuild]
  show (if e.config.autoLinks then _ else _) = _
  split
  · rcases ({ e with model := m.sorted } : Enforcer σ).buildLinks with ⟨_ | _, l⟩ <;> rfl
  · rfl

theorem finishLoad_withEvaluation (loaded : Except Error Unit × Model × σ) :
    (e.withEvaluation v).finishLoad loaded = carry v (e.finishLoad loaded) := by
  match loaded with
  | (.ok (), m, store) => exact install_withEvaluation { e with store } v m
  | (.error _, m, store) => rfl

end

/-! ## Changes -/

section

variable [PolicyStore σ] (e : Enforcer σ) (v : EvalState) {sec name : String}

theorem addRows_withEvaluation (rows : List Row) :
    (e.withEvaluation v).addRows sec name rows = carry v (e.addRows sec name rows) := by
  unfold addRows
  rw [followRows_withEvaluation, withEvaluation_model]
  rcases e.model.find sec name with _ | d
  · rfl
  dsimp only
  rcases d.checkRows rows with _ | _
  · rfl
  dsimp only
  by_cases hrepeats : (rows.isEmpty || d.repeatsRow rows) = true
  · rw [if_pos hrepeats, if_pos hrepeats]
    rfl
  rw [if_neg hrepeats, if_neg hrepeats]
  rcases e.followRows sec name .add rows with ⟨_ | _, l⟩
  · rfl
  dsimp only [carry]
  rw [persist_withEvaluation]
  rcases l.persist (storeRows sec name rows) with ⟨_ | _, s⟩
  · dsimp only [carry]
    rw [followRows_withEvaluation]
    rcases s.followRows sec name .remove rows with ⟨_ | _, k⟩ <;> rfl
  · exact finishChange_withEvaluation s v (s.model.addMany sec name rows)

theorem removeRows_withEvaluation (rows : List Row) :
    (e.withEvaluation v).removeRows sec name rows = carry v (e.removeRows sec name rows) := by
  unfold removeRows
  rw [persist_withEvaluation, withEvaluation_model]
  rcases e.model.find sec name with _ | d
  · rfl
  dsimp only
  by_cases habsent : (rows.isEmpty || !rows.all d.contains) = true
  · rw [if_pos habsent, if_pos habsent]
    rfl
  rw [if_neg habsent, if_neg habsent]
  rcases e.persist (unstoreRows sec name rows) with ⟨_ | _, s⟩
  · rfl
  dsimp only [carry]
  rw [followRows_withEvaluation]
  rcases s.followRows sec name .remove rows with ⟨_ | _, l⟩
  · rfl
  · exact finishChange_withEvaluation l v (l.model.removeMany sec name rows)

theorem removeFiltered_withEvaluation (index : Nat) (values : List String) :
    (e.withEvaluation v).removeFiltered sec name index values =
      carry v (e.removeFiltered sec name index values) := by
  unfold removeFiltered
  rw [persist_withEvaluation, withEvaluation_model]
  rcases e.model.find sec name with _ | d
  · rfl
  dsimp only
  rcases e.persist fun s => PolicyStore.removeFiltered s sec name index values with ⟨_ | _, s⟩
  · rfl
  dsimp only [carry]
  rw [withEvaluation_model]
  rcases s.model.removeFiltered sec name index values with _ | ⟨m, _ | ⟨row, rest⟩⟩
  · rfl
  · rfl
  · have hfollow : (({ s with model := m } : Enforcer σ).withEvaluation v).followRows sec name .remove
        (row :: rest) = _ := followRows_withEvaluation _ v .remove (row :: rest)
    dsimp only [withEvaluation] at hfollow ⊢
    rw [hfollow]
    rcases ({ s with model := m } : Enforcer σ).followRows sec name .remove (row :: rest) with
      ⟨_ | _, l⟩ <;> rfl

theorem updateRow_withEvaluation (old new : Row) :
    (e.withEvaluation v).updateRow sec name old new = carry v (e.updateRow sec name old new) := by
  unfold updateRow
  rw [relinkRow_withEvaluation, withEvaluation_model]
  rcases e.model.find sec name with _ | d
  · rfl
  dsimp only
  rcases d.checkRow new with _ | _
  · rfl
  dsimp only
  by_cases hmisses : (!d.contains old || (new != old && d.contains new)) = true
  · rw [if_pos hmisses, if_pos hmisses]
    rfl
  rw [if_neg hmisses, if_neg hmisses]
  rcases e.relinkRow sec name old new with ⟨_ | _, l⟩
  · rfl
  dsimp only [carry]
  rw [persist_withEvaluation]
  rcases l.persist fun s => PolicyStore.update s sec name old new with ⟨_ | _, s⟩
  · dsimp only [carry]
    rw [unlinkRow_withEvaluation]
    rcases s.unlinkRow sec name old new with ⟨_ | _, k⟩ <;> rfl
  · exact finishChange_withEvaluation s v (s.model.replace sec name old new)

theorem clear_withEvaluation : (e.withEvaluation v).clear = carry v e.clear := by
  unfold clear
  rw [persist_withEvaluation]
  rcases e.persist PolicyStore.clear with ⟨_ | _, k⟩ <;> rfl

theorem load_withEvaluation : (e.withEvaluation v).load = carry v e.load :=
  e.finishLoad_withEvaluation v (PolicyStore.load e.store e.model.clear)

theorem loadFiltered_withEvaluation (filter : Filter) :
    (e.withEvaluation v).loadFiltered filter = carry v (e.loadFiltered filter) :=
  e.finishLoad_withEvaluation v (PolicyStore.loadFiltered e.store filter e.model.clear)

theorem save_withEvaluation : (e.withEvaluation v).save = carry v e.save := by
  unfold save
  rw [withEvaluation_isFiltered]
  by_cases hfiltered : e.isFiltered = true
  · rw [if_pos hfiltered, if_pos hfiltered]
    rfl
  rw [if_neg hfiltered, if_neg hfiltered, withEvaluation_model, withEvaluation_store]
  rcases PolicyStore.save e.store e.model.lines with ⟨_ | _, s⟩ <;> rfl

end

/-! ## Settings and parts -/

section

variable (e : Enforcer σ) (v : EvalState) (name : String)

theorem removeFunction_withEvaluation :
    ∃ w, (e.withEvaluation v).removeFunction name = carry w (e.removeFunction name) := by
  unfold removeFunction
  by_cases hthere : e.functions.contains name = true
  · refine ⟨{ v with programs := [] }, ?_⟩
    rw [if_pos hthere]
    exact if_pos hthere
  · refine ⟨v, ?_⟩
    rw [if_neg hthere]
    exact if_neg hthere

theorem setManager_withEvaluation (m : RoleManager) :
    (e.withEvaluation v).setManager name m =
      carry { v with programs := [] } (e.setManager name m) := by
  unfold setManager
  exact rebuildLinks_withEvaluation ({ e with managers := e.managers.put name m }.dropPrograms)
    { v with programs := [] }

theorem changeManager_withEvaluation (f : RoleManager → RoleManager) :
    ∃ w, (e.withEvaluation v).changeManager name f = carry w (e.changeManager name f) := by
  unfold changeManager withEvaluation
  dsimp only
  rcases e.managers.find name with _ | m
  · exact ⟨v, rfl⟩
  · exact ⟨_, setManager_withEvaluation e v name (f m)⟩

theorem setModel_withEvaluation [PolicyStore σ] (model : Model) :
    ∃ w, (e.withEvaluation v).setModel model = carry w (e.setModel model) := by
  unfold setModel
  rcases model.checkEffects with _ | _
  · exact ⟨v, rfl⟩
  · refine ⟨{ v with programs := [] }, ?_⟩
    dsimp only
    exact load_withEvaluation ({ e with model, managers := [] }.initManagers.dropPrograms)
      { v with programs := [] }

end

end Enforcer

/-! ## Decisions -/

/-- A scan ends alike from all ready states. -/
theorem scanRows_congr {test : Row → EvalState → Bool × EvalState} {holds : Row → Bool}
    (ready : EvalState → Prop)
    (htest : ∀ row state, ready state → (test row state).1 = holds row ∧ ready (test row state).2)
    (effectOf : Row → Effect) (s : Scan) (rows : List Row) {a b : EvalState} (ha : ready a)
    (hb : ready b) :
    (scanRows test effectOf s a rows).1 = (scanRows test effectOf s b rows).1 := by
  induction rows generalizing s a b with
  | nil => rfl
  | cons row rest ih =>
    obtain ⟨hresult, hnext⟩ := htest row a ha
    obtain ⟨hresult', hnext'⟩ := htest row b hb
    rw [scanRows, scanRows]
    rcases hrun : test row a with ⟨x, next⟩
    rcases hrun' : test row b with ⟨y, next'⟩
    rw [hrun] at hresult hnext
    rw [hrun'] at hresult' hnext'
    dsimp only at hresult hresult'
    subst hresult hresult'
    cases holds row with
    | false => exact ih s hnext hnext'
    | true =>
      dsimp only
      split
      · rfl
      · exact ih _ hnext hnext'

/-- With right programs, the decision does not depend on which they are. -/
theorem Question.decide_congr (q : Question) (program : Program) {scope : Scope} {a b : EvalState}
    (ha : a.programs.FromScratch scope) (hb : b.programs.FromScratch scope) (effector : Effector) :
    (q.decide program scope effector a).1 = (q.decide program scope effector b).1 := by
  unfold decide
  dsimp only
  split
  · have hempty : (q.matchesRow program scope [] a).1 = (q.matchesRow program scope [] b).1 := by
      rw [(q.matchesRow_eq program ha []).1, (q.matchesRow_eq program hb []).1]
    rcases hrun : q.matchesRow program scope [] a with ⟨x, next⟩
    rcases hrun' : q.matchesRow program scope [] b with ⟨y, next'⟩
    rw [hrun, hrun'] at hempty
    dsimp only at hempty
    subst hempty
    cases x <;> rfl
  · exact congrArg Scan.decision (scanRows_congr (fun state => state.programs.FromScratch scope)
      (fun row _ hstate => q.matchesRow_eq program hstate row) q.effectOf _ q.policy.rows ha hb)

namespace Enforcer

variable {σ : Type}

theorem enforce_withEvaluation {e : Enforcer σ} {v : EvalState} (he : e.evaluation.programs.FromScratch e.scope)
    (hv : v.programs.FromScratch e.scope) (ctx : Context) (request : List Value) :
    ((e.withEvaluation v).enforce ctx request).1 = (e.enforce ctx request).1 := by
  unfold enforce
  rw [withEvaluation_model]
  by_cases henabled : e.config.enabled = true
  · rw [if_pos henabled, if_pos (show (e.withEvaluation v).config.enabled = true from henabled)]
    rcases e.model.question ctx request with _ | q
    · rfl
    dsimp only
    rw [withEvaluation_scope, withEvaluation_evaluation]
    have hcompile : EvalM.Gives e.scope (EvalM.compile e.scope q.matcher) _ :=
      EvalM.gives_compile q.matcher
    obtain ⟨hresult, hright⟩ := hcompile e.evaluation he
    obtain ⟨hresult', hright'⟩ := hcompile v hv
    rcases hrun : (EvalM.compile e.scope q.matcher).run e.evaluation with ⟨x, next⟩
    rcases hrun' : (EvalM.compile e.scope q.matcher).run v with ⟨y, next'⟩
    rw [hrun] at hresult hright
    rw [hrun'] at hresult' hright'
    dsimp only at hresult hresult'
    rw [hresult, hresult']
    rcases Program.ofSource e.scope (joinReferences q.matcher) with _ | program
    · rfl
    · exact congrArg Except.ok (q.decide_congr program hright' hright e.effector)
  · rw [if_neg henabled, if_neg (show ¬ (e.withEvaluation v).config.enabled = true from henabled)]

/-- Two enforcers that differ in what they remember of evaluations at most. -/
def Alike (e k : Enforcer σ) : Prop := ∃ v, k = e.withEvaluation v

theorem Alike.refl (e : Enforcer σ) : e.Alike e := ⟨e.evaluation, rfl⟩

/-- Alike enforcers decide alike, and stay alike. -/
theorem Alike.enforce {e k : Enforcer σ} (h : e.Alike k) (he : e.Valid) (hk : k.Valid) (ctx : Context)
    (request : List Value) : (k.enforce ctx request).1 = (e.enforce ctx request).1 ∧
      (e.enforce ctx request).2.Alike (k.enforce ctx request).2 := by
  obtain ⟨v, rfl⟩ := h
  obtain ⟨w, heq, -⟩ := e.enforce_frame ctx request
  obtain ⟨w', heq', -⟩ := (e.withEvaluation v).enforce_frame ctx request
  refine ⟨enforce_withEvaluation he.programs hk.programs ctx request, w', ?_⟩
  rw [heq, heq']
  rfl

/-- Answers that differ in the evaluation after them at most. -/
theorem alike_of_carry {α : Type} {x y : α × Enforcer σ} (h : ∃ w, y = carry w x) :
    y.1 = x.1 ∧ x.2.Alike y.2 := by
  obtain ⟨w, rfl⟩ := h
  exact ⟨rfl, w, rfl⟩

variable [PolicyStore σ]

/-- A call that is no decision is answered alike, whatever was remembered. -/
theorem perform_withEvaluation (e : Enforcer σ) (v : EvalState) {c : Call σ}
    (hc : ∀ ctx request, c ≠ .enforce ctx request) :
    ∃ w, (e.withEvaluation v).perform c = carry w (e.perform c) := by
  cases c with
  | enable | enableLog | enableAutoSave | enableAutoLinks | setStore | setEffector => exact ⟨v, rfl⟩
  | addFunction => exact ⟨{ v with programs := [] }, rfl⟩
  | takeTrace => exact ⟨{ v with trace := [] }, rfl⟩
  | removeFunction name =>
    obtain ⟨w, hremove⟩ := removeFunction_withEvaluation e v name
    exact ⟨w, congrArg (fun answer : Bool × Enforcer σ => (Except.ok (), answer.2)) hremove⟩
  | setModel model => exact setModel_withEvaluation e v model
  | setManager name m => exact ⟨_, setManager_withEvaluation e v name m⟩
  | setNameMatch name => exact changeManager_withEvaluation e v name _
  | setDomainMatch name => exact changeManager_withEvaluation e v name _
  | buildLinks => exact ⟨v, buildLinks_withEvaluation e v⟩
  | load => exact ⟨v, load_withEvaluation e v⟩
  | loadFiltered filter => exact ⟨v, loadFiltered_withEvaluation e v filter⟩
  | save => exact ⟨v, save_withEvaluation e v⟩
  | addRows _ _ rows => exact ⟨v, congrArg outcome (addRows_withEvaluation e v rows)⟩
  | removeRows _ _ rows => exact ⟨v, congrArg outcome (removeRows_withEvaluation e v rows)⟩
  | removeFiltered _ _ index values =>
    exact ⟨v, congrArg outcome (removeFiltered_withEvaluation e v index values)⟩
  | updateRow _ _ old new => exact ⟨v, congrArg outcome (updateRow_withEvaluation e v old new)⟩
  | clear => exact ⟨v, clear_withEvaluation e v⟩
  | enforce ctx request => exact absurd rfl (hc ctx request)

/-- Alike enforcers answer every call alike, and stay alike. -/
theorem Alike.perform {e k : Enforcer σ} (h : e.Alike k) (he : e.Valid) (hk : k.Valid) (c : Call σ) :
    (k.perform c).1 = (e.perform c).1 ∧ (e.perform c).2.Alike (k.perform c).2 := by
  by_cases hc : ∃ ctx request, c = .enforce ctx request
  · obtain ⟨ctx, request, rfl⟩ := hc
    obtain ⟨hanswer, hnext⟩ := h.enforce he hk ctx request
    exact ⟨congrArg (Except.map fun _ => ()) hanswer, hnext⟩
  · obtain ⟨v, rfl⟩ := h
    exact alike_of_carry (perform_withEvaluation e v fun ctx request heq => hc ⟨ctx, request, heq⟩)

end Enforcer

end AccessControl
