import AccessControl.Proofs.Enforcer.SubjectOrder
/-!
# Sorting again

Where the default effect goes by subjects, policy rows are sorted again after every change of rows.  Rows of
subjects below no cycle of role rows stay in their order then, and what such rows decide they still decide.

The level of a name below a cycle is that of the chain on which it was met first: a name met again counts as
a top, and the levels of the names between are remembered as they were then.  So it depends on the order of
the rows, which sorting changes, and sorting again can give another order.

    m.Ranked → m.SparesRows k name keep → the rows kept are in their order (`SparesRows.rows_resorted`)
    what such rows decide they still decide                            (`Valid.enforce_setRows`)
-/

namespace AccessControl

open Relation

theorem grounded_of_parents {link : String → String → Prop} {name : String}
    (h : ∀ parent, link name parent → Grounded link parent) : Grounded link name := by
  have hself : ¬ TransGen link name name := by
    intro hloop
    obtain ⟨parent, hlink, hback⟩ := TransGen.head'_iff.1 hloop
    exact h parent hlink name hback hloop
  intro above habove
  rcases ReflTransGen.cases_head habove with rfl | ⟨parent, hlink, hrest⟩
  · exact hself
  · exact h parent hlink above hrest

/-! ## Definitions -/

namespace Definition

theorem statedEffect_eq {d k : Definition} (h : d.bare = k.bare) : d.statedEffect = k.statedEffect := by
  funext row
  unfold statedEffect fieldIndex
  rw [key_eq h, fields_eq h]

/-- Rows below no cycle are in the order of their subjects, whatever stands between them. -/
theorem Ranked.filter {d : Definition} {link : String → String → Prop} (h : d.Ranked link)
    {keep : Row → Bool} (hgrounded : ∀ row ∈ d.rows, keep row = true → Grounded link (d.subject row)) :
    (d.rows.filter keep).Pairwise fun a b => ¬ Deeper link (d.subject b) (d.subject a) := by
  have hkept : ∀ row ∈ d.rows.filter keep, Grounded link (d.subject row) :=
    fun row hrow => hgrounded row (List.mem_of_mem_filter hrow) (List.mem_filter.1 hrow).2
  exact (List.Pairwise.filter keep h).imp_of_mem fun ha hb hnot => hnot (hkept _ ha) (hkept _ hb)

theorem Ranked.sortBySubject_eq {d : Definition} {h : Hierarchy} (hranked : d.Ranked h.Link)
    (hgrounded : ∀ row ∈ d.rows, Grounded h.Link (d.subject row)) {known : Table Nat}
    (hknown : h.Remembers known) : (d.sortBySubject h known).1 = d := by
  have hall : ∀ row ∈ d.rows, (fun _ : Row => true) row = true → Grounded h.Link (d.subject row) :=
    fun row hrow _ => hgrounded row hrow
  have hrows := d.filter_sortBySubject hknown hall (hranked.filter hall)
  rw [List.filter_true, List.filter_true] at hrows
  exact d.sortBySubject_eq hrows

end Definition

/-! ## Models -/

theorem sortAllBySubject_again {h : Hierarchy} {known other : Table Nat} (hknown : h.Remembers known)
    (hother : h.Remembers other) {defs : Table Definition}
    (hgrounded : ∀ e ∈ defs, ∀ row ∈ e.2.rows, Grounded h.Link (e.2.subject row)) :
    sortAllBySubject h other (sortAllBySubject h known defs) = sortAllBySubject h known defs := by
  induction defs generalizing known other with
  | nil => rfl
  | cons e rest ih =>
    obtain ⟨name, d⟩ := e
    rw [List.forall_mem_cons] at hgrounded
    have hsame : ((d.sortBySubject h known).1.sortBySubject h other).1 = (d.sortBySubject h known).1 := by
      refine (d.ranked_sortBySubject hknown).sortBySubject_eq (fun row hrow => ?_) hother
      rw [Definition.subject_eq (d.bare_sortBySubject h known)]
      exact hgrounded.1 row ((d.rows_sortBySubject h known).mem_iff.1 hrow)
    simp only [sortAllBySubject]
    rw [hsame, ih (d.remembers_sortBySubject hknown)
      ((d.sortBySubject h known).1.remembers_sortBySubject hother) hgrounded.2]

namespace Model

/-- No policy row has a subject from which role rows lead to a cycle. -/
def Grounded (m : Model) : Prop :=
  ∀ d ∈ m.definitions "p", ∀ row ∈ d.rows, AccessControl.Grounded m.hierarchy.Link (d.subject row)

/-- A change that leaves the role rows as they are, and the rows of one policy definition that satisfy a
test, none of which has a subject from which role rows lead to a cycle. -/
structure SparesRows (m k : Model) (name : String) (keep : Row → Bool) : Prop where
  evolves : m.Evolves k
  hierarchy : k.hierarchy = m.hierarchy
  kept : (k.rows "p" name).filter keep = (m.rows "p" name).filter keep
  grounded : ∀ d, m.find? "p" name = some d → ∀ row ∈ d.rows, keep row = true →
    AccessControl.Grounded m.hierarchy.Link (d.subject row)

theorem Grounded.sortBySubject_again {m : Model} (h : m.Grounded) :
    m.sortBySubject.sortBySubject = m.sortBySubject := by
  refine congrArg Model.mk (Table.update_of_find fun defs hdefs => ?_)
  rw [hierarchy_sortBySubject]
  unfold sortBySubject at hdefs
  rw [Table.find_update_self] at hdefs
  obtain ⟨old, hold, rfl⟩ := Option.map_eq_some_iff.1 hdefs
  refine sortAllBySubject_again Hierarchy.remembers_nil Hierarchy.remembers_nil fun e he => h e.2 ?_
  rw [definitions, hold]
  exact List.mem_map_of_mem he

/-- Sorting again leaves the rows of a definition, in some order. -/
theorem rows_resorted_perm (m : Model) (name : String) :
    (m.resorted.rows "p" name).Perm (m.rows "p" name) := by
  unfold resorted
  split
  · obtain ⟨levels, -, hfind⟩ := m.find?_p_sorted name
    unfold rows
    rw [hfind]
    cases m.find? "p" name with
    | none => exact List.Perm.refl _
    | some d => exact d.rows_sortBySubject m.hierarchy levels
  · exact List.Perm.refl _

/-- The rows that a change spares are in the order in which they were. -/
theorem SparesRows.rows_resorted {m k : Model} {name : String} {keep : Row → Bool}
    (h : m.SparesRows k name keep) (hranked : m.Ranked) :
    (k.resorted.rows "p" name).filter keep = (m.rows "p" name).filter keep := by
  rw [← h.kept]
  unfold resorted
  split
  · cases hd : k.find? "p" name with
    | none =>
      obtain ⟨levels, -, hfind⟩ := k.find?_p_sorted name
      rw [hd] at hfind
      unfold rows
      rw [hfind, hd]
      rfl
    | some d =>
      obtain ⟨levels, hlevels, hfind⟩ := k.find?_p_sorted name
      obtain ⟨old, hold, hbare⟩ := find?_of_bare h.evolves.bare hd
      have hkept := h.kept
      rw [rows_of_find? hd, rows_of_find? hold] at hkept
      have hsubject := Definition.subject_eq hbare
      rw [hd] at hfind
      rw [rows_of_find? hfind, rows_of_find? hd]
      refine d.filter_sortBySubject hlevels (fun row hrow hkeep => ?_) ?_
      · have hmem : row ∈ old.rows.filter keep := hkept ▸ List.mem_filter.2 ⟨hrow, hkeep⟩
        rw [h.hierarchy, ← hsubject]
        exact h.grounded old hold row (List.mem_of_mem_filter hmem) hkeep
      · rw [hkept, h.hierarchy, ← hsubject]
        exact (hranked name old hold).filter (h.grounded old hold)
  · rfl

end Model

/-! ## Decisions -/

namespace Enforcer

variable {σ : Type}

theorem Valid.setRows {e : Enforcer σ} (he : e.Valid) {k : Model} (hk : e.model.Evolves k) :
    (e.setRows k true).Valid := by
  rw [setRows_eq]
  have hevolves := hk.trans (Model.evolves_resorted k)
  exact ⟨hevolves.wellFormed he.model, Model.checkEffects_of_bare hevolves.bare he.effects, he.managers,
    he.programs⟩

/-- What rows that a change spares decide they decide after it. -/
theorem Valid.enforce_setRows {e : Enforcer σ} (he : e.Valid) (heffector : e.effector = .standard)
    (hranked : e.model.Ranked) {ctx : Context} {request : List Value} {r p effect matcher : Definition}
    {program : Program} (hr : e.model.find? "r" ctx.request = some r)
    (hp : e.model.find? "p" ctx.policy = some p) (heffect : e.model.find? "e" ctx.effect = some effect)
    (hmatcher : e.model.find? "m" ctx.matcher = some matcher) (harity : request.length = r.fields.length)
    (hcompile : Program.ofSource e.scope (joinReferences matcher.value) = .ok program)
    {k : Model} (hspares : e.model.SparesRows k ctx.policy fun row =>
      program.holds e.scope ⟨r.fields, request, p.fields, row⟩)
    (hrows : p.rows ≠ []) (hleft : k.rows "p" ctx.policy ≠ []) :
    ((e.setRows k true).enforce ctx request).1 = (e.enforce ctx request).1 := by
  have hvalid := he.setRows hspares.evolves
  have hevolves := hspares.evolves.trans (Model.evolves_resorted k)
  rw [setRows_eq] at hvalid ⊢
  by_cases hon : e.config.enabled = true
  · obtain ⟨kind, hkind⟩ := he.effect heffect
    have hfind : ∀ {sec name : String} {d : Definition}, e.model.find? sec name = some d →
        ∃ new, k.resorted.find? sec name = some new ∧ new.bare = d.bare :=
      fun hd => Model.find?_of_bare hevolves.bare.symm hd
    obtain ⟨r', hr', hrbare⟩ := hfind hr
    obtain ⟨p', hp', hpbare⟩ := hfind hp
    obtain ⟨effect', heffect', hebare⟩ := hfind heffect
    obtain ⟨matcher', hmatcher', hmbare⟩ := hfind hmatcher
    have hrows' : k.resorted.rows "p" ctx.policy = p'.rows := Model.rows_of_find? hp'
    have hne : p'.rows ≠ [] := by
      rintro hnil
      rw [← hrows'] at hnil
      exact hleft (List.perm_nil.1 (hnil ▸ (k.rows_resorted_perm ctx.policy).symm))
    have hmatching : ({ e with model := k.resorted } : Enforcer σ).matching r' p' program request =
        e.matching r p program request := by
      unfold matching
      rw [Definition.fields_eq hrbare, Definition.fields_eq hpbare, ← hrows', ← Model.rows_of_find? hp]
      exact hspares.rows_resorted hranked
    rw [hvalid.enforce_eq hon heffector hr' hp' heffect' (Definition.value_eq hebare ▸ hkind) hmatcher'
        (Definition.fields_eq hrbare ▸ harity) (Definition.value_eq hmbare ▸ hcompile) hne,
      he.enforce_eq hon heffector hr hp heffect hkind hmatcher harity hcompile hrows, hmatching,
      Definition.statedEffect_eq hpbare]
  · -- a disabled enforcer allows everything
    unfold enforce
    rw [if_neg hon, if_neg hon]

/-- What a request is told by rows that a change spares it is told after the change. -/
def DecidesAlike (e : Enforcer σ) (k : Model) : Prop :=
  ∀ (ctx : Context) (request : List Value) (r p effect matcher : Definition) (program : Program),
    e.model.find? "r" ctx.request = some r → e.model.find? "p" ctx.policy = some p →
    e.model.find? "e" ctx.effect = some effect → e.model.find? "m" ctx.matcher = some matcher →
    request.length = r.fields.length →
    Program.ofSource e.scope (joinReferences matcher.value) = .ok program →
    (e.model.SparesRows k ctx.policy fun row =>
      program.holds e.scope ⟨r.fields, request, p.fields, row⟩) →
    p.rows ≠ [] → k.rows "p" ctx.policy ≠ [] →
    ((e.setRows k true).enforce ctx request).1 = (e.enforce ctx request).1

/-! ## A cycle entered at two names -/

/-- Rules for the names of a cycle and for one that leads to it. -/
def loopedRules : Definition := (Definition.make "p" "p" "sub").insertAll [["a"], ["b"], ["c"]]

/-- The cycle of the first two names, and the way to it from the last. -/
def loopedLinks : List Row := [["c", "d"], ["d", "b"], ["b", "a"], ["a", "b"]]

def loopedModel : Model :=
  .build [.define "p" "p" "sub", .define "g" "g" "_, _", .addDuplicates "g" "g" loopedLinks,
    .addDuplicates "p" "p" [["a"], ["b"], ["c"]]]

/-- The cycle is entered at the first name, which is deeper for that. -/
theorem sortBySubject_loopedRules : (loopedRules.sortBySubject loopedModel.hierarchy []).1 =
    { loopedRules with rows := [["c"], ["a"], ["b"]] } :=
  loopedRules.sortBySubject_eq (by cbv)

/-- The cycle is entered from below at the second name. -/
theorem sortBySubject_loopedRules_again :
    (Definition.sortBySubject { loopedRules with rows := [["c"], ["a"], ["b"]] }
      loopedModel.hierarchy []).1 = { loopedRules with rows := [["c"], ["b"], ["a"]] } :=
  Definition.sortBySubject_eq _ (by cbv)

/-! ## Rules beside a cycle -/

/-- A role with a member, and two roles that inherit each other. -/
def tiedLinks : List Row := [["ann", "staff"], ["a", "b"], ["b", "a"]]

/-- What the member may not, although its role may, and what one of the two roles may. -/
def tiedRows : List Row :=
  [["staff", "read", "allow"], ["ann", "read", "deny"], ["a", "write", "allow"]]

def tiedRules : Definition := (Definition.make "p" "p" "sub, act, eft").insertAll tiedRows

def tiedModel : Model :=
  .build [.define "r" "r" "act", .define "p" "p" "sub, act, eft", .define "g" "g" "_, _",
    .define "e" "e" EffectKind.subjectPriority.text, .define "m" "m" "r.act == p.act"]

/-- These rules in the order of their subjects. -/
def tiedSorted : Definition := { tiedRules with
  rows := [["a", "write", "allow"], ["ann", "read", "deny"], ["staff", "read", "allow"]] }

/-- The program of the matcher. -/
def tiedProgram : Program :=
  ⟨joinReferences "r.act == p.act", .binary .eq (.field "r_act") (.field "p_act")⟩

theorem ofSource_tiedMatcher (scope : Scope) :
    Program.ofSource scope (joinReferences "r.act == p.act") = .ok tiedProgram := by
  have hexpr : Expr.ofText (joinReferences "r.act == p.act") =
      .ok (.binary .eq (.field "r_act") (.field "p_act")) := by cbv
  simp [Program.ofSource, hexpr, Scope.unknownCall?, Expr.calls, tiedProgram]

theorem sortBySubject_tiedRules :
    (tiedRules.sortBySubject [("ann", "staff"), ("a", "b"), ("b", "a")] []).1 = tiedSorted :=
  tiedRules.sortBySubject_eq (by cbv)

/-- The names beside the cycle are below none. -/
theorem grounded_tied {h : Hierarchy} (hlinks : h = [("ann", "staff"), ("a", "b"), ("b", "a")])
    {name : String} (hname : name = "ann" ∨ name = "staff") : Grounded h.Link name := by
  subst hlinks
  have hstaff : Grounded (Hierarchy.Link [("ann", "staff"), ("a", "b"), ("b", "a")]) "staff" :=
    grounded_of_parents fun parent hlink => by simp [Hierarchy.Link] at hlink
  rcases hname with rfl | rfl
  · refine grounded_of_parents fun parent hlink => ?_
    obtain rfl : parent = "staff" := by simpa [Hierarchy.Link] using hlink
    exact hstaff
  · exact hstaff

/-- An enforcer that leaves its store and its role links alone. -/
def detached (model : Model) : Enforcer MemoryStore :=
  { model, store := {}, managers := [("g", {})], config := { autoSave := false, autoLinks := false } }

theorem Reachable.detached_addRows {model : Model} {sec name : String} {rows : List Row} {d : Definition}
    (h : Reachable Made (fun _ c => c.keepsDefinitions = true) (detached model))
    (horder : ordersBySubject model = true) (hsec : sec = "p" ∨ sec = "g")
    (hd : model.find? sec name = some d)
    (hfit : (∀ row ∈ rows, row.length = d.fields.length) ∧ (∀ row ∈ rows, row ∉ d.rows) ∧
      rows.Nodup ∧ rows ≠ []) :
    Reachable Made (fun _ c => c.keepsDefinitions = true)
      (detached (model.modify sec name (·.insertAll rows)).sortBySubject) := by
  have hfollow : (detached model).followRows sec name .add rows = (.ok (), detached model) := by
    simp [followRows, detached]
  have hadd := perform_addRows_resorted (h.valid fun _ h => h) hsec hd hfollow (persist_unsaved rfl _) hfit
  have hstep := h.step (.addRows sec name rows) rfl
  have hsorted : (model.modify sec name (·.insertAll rows)).resorted =
      (model.modify sec name (·.insertAll rows)).sortBySubject :=
    if_pos ((ordersBySubject_modify model hsec _).trans horder)
  rw [← hsorted]
  rwa [hadd] at hstep

/-- The links of the roles. -/
def tiedLinked : Model := (tiedModel.modify "g" "g" (·.insertAll tiedLinks)).sortBySubject

/-- The rows in their order. -/
def tiedState : Model := (tiedLinked.modify "p" "p" (·.insertAll tiedRows)).sortBySubject

/-- Another rule, for the other name of the cycle, behind them. -/
def tiedAfter : Model := tiedState.modify "p" "p" (·.insertAll [["b", "write", "allow"]])

theorem reachable_tied : Reachable Made (fun _ c => c.keepsDefinitions = true) (detached tiedState) := by
  have hstart : Reachable Made (fun _ c => c.keepsDefinitions = true) (detached tiedModel) :=
    .start ⟨tiedModel, {}, { autoSave := false, autoLinks := false }, ⟨_, rfl⟩, rfl⟩
  have horder : ordersBySubject tiedModel = true :=
    tiedModel.ordersBySubject_iff.2 ⟨_, rfl, EffectKind.ofText_text .subjectPriority⟩
  have hlinked : ordersBySubject tiedLinked = true := by
    rw [tiedLinked, Model.ordersBySubject_of_bare (Model.bare_sortBySubject _),
      ordersBySubject_modify _ (Or.inr rfl)]
    exact horder
  exact (hstart.detached_addRows horder (Or.inr rfl) rfl (by decide)).detached_addRows hlinked (Or.inl rfl) rfl
    (by decide)

theorem find?_tiedState : tiedState.find? "p" "p" = some tiedSorted := by
  rw [← sortBySubject_tiedRules]
  rfl

theorem rows_tiedAfter :
    tiedAfter.rows "p" "p" = tiedState.rows "p" "p" ++ [["b", "write", "allow"]] := by
  rw [tiedAfter, Model.rows_of_find? (Model.find?_modify_self find?_tiedState _),
    Model.rows_of_find? find?_tiedState]
  rfl

theorem sparesRows_tied : tiedState.SparesRows tiedAfter "p" fun row =>
    tiedProgram.holds (detached tiedState).scope ⟨["r_act"], [.str "read"], tiedSorted.fields, row⟩ where
  evolves := by
    have htidy := (reachable_tied.valid fun _ h => h).model.tidy "p" "p" _ find?_tiedState
    refine Model.evolves_insertAll find?_tiedState (by decide) (fun row hrow => ?_) (by decide)
    rw [htidy.contains_eq_false_iff]
    revert row
    decide
  hierarchy := Model.hierarchy_of_find? (by rw [tiedAfter, Model.find?_modify, if_neg (by simp)])
  kept := by
    rw [rows_tiedAfter, List.filter_append]
    exact List.append_nil _
  grounded := by
    intro d hd row hrow hholds
    obtain rfl := Option.some.inj (find?_tiedState.symm.trans hd)
    have hcases : row = ["a", "write", "allow"] ∨ row = ["ann", "read", "deny"] ∨
        row = ["staff", "read", "allow"] := by
      simpa [tiedSorted] using hrow
    rcases hcases with rfl | rfl | rfl
    · -- the rule for the name of the cycle does not match
      exact absurd hholds (by decide)
    · exact grounded_tied rfl (Or.inl rfl)
    · exact grounded_tied rfl (Or.inr rfl)

/-- The member is told what its own rule says. -/
theorem enforce_tied : ((detached tiedState).enforce {} [.str "read"]).1 =
    .ok ⟨false, [["ann", "read", "deny"]]⟩ := by
  have hdecision : ((detached tiedState).enforce {} [.str "read"]).1 = .ok (fullScan .subjectPriority
      tiedSorted.statedEffect ((detached tiedState).matching (.make "r" "r" "act") tiedSorted tiedProgram
        [.str "read"])) :=
    (reachable_tied.valid fun _ h => h).enforce_eq rfl rfl rfl find?_tiedState rfl
      (EffectKind.ofText_text .subjectPriority) rfl rfl (ofSource_tiedMatcher _) (by decide)
  exact hdecision.trans rfl

/-! ## Top theorem (proved from the lemmas above) -/

variable [PolicyStore σ]

/-- **Sorting again changes nothing below no cycle.**  For every model in which role rows lead from no subject
of a policy row to a cycle, sorting twice gives what sorting once gives.  And in every state that calls lead
to from a new enforcer without taking another model, when the default effect goes by subjects: whatever is
made of the rows before they are sorted again, the policy rows that it spares keep their order, and a
request that only such rows match is told the same as before. -/
theorem sorted_again :
    (∀ m : Model, m.Grounded → m.sortBySubject.sortBySubject = m.sortBySubject) ∧
      ∀ e : Enforcer σ, Reachable Made (fun _ c => c.keepsDefinitions = true) e →
        (∃ d, e.model.find? "e" "e" = some d ∧ EffectKind.ofText d.value = .ok .subjectPriority) →
        (∀ k name keep, e.model.SparesRows k name keep →
          ((e.setRows k true).model.rows "p" name).filter keep =
            (e.model.rows "p" name).filter keep) ∧
        (e.effector = .standard → ∀ k, e.DecidesAlike k) := by
  refine ⟨fun m hm => hm.sortBySubject_again, fun e h hdefault => ?_⟩
  have hranked := h.ranked (e.model.ordersBySubject_iff.2 hdefault)
  refine ⟨fun k name keep hspares => ?_, fun heffector k => ?_⟩
  · rw [setRows_eq]
    exact hspares.rows_resorted hranked
  · intro ctx request r p effect matcher program hr hp heffect hmatcher harity hcompile hspares hrows hleft
    exact (h.valid fun _ hmade => hmade).enforce_setRows heffector hranked hr hp heffect hmatcher harity
      hcompile hspares hrows hleft

/-- Without cycles nothing changes; and the member is still told what it was told when another rule for a
name of the cycle was added. -/
theorem sorted_again_tied : Model.memberModel.sortBySubject.sortBySubject = Model.memberModel.sortBySubject ∧
    ∃ (e : Enforcer MemoryStore) (k : Model),
    Reachable Made (fun _ c => c.keepsDefinitions = true) e ∧
      k.rows "p" "p" = e.model.rows "p" "p" ++ [["b", "write", "allow"]] ∧
      ((e.setRows k true).enforce {} [.str "read"]).1 = .ok ⟨false, [["ann", "read", "deny"]]⟩ := by
  obtain ⟨hmodels, hstates⟩ := @sorted_again MemoryStore _
  obtain ⟨-, halike⟩ := hstates _ reachable_tied ⟨_, rfl, EffectKind.ofText_text .subjectPriority⟩
  have hsame := halike rfl tiedAfter {} [.str "read"] _ _ _ _ _ rfl find?_tiedState rfl rfl rfl
    (ofSource_tiedMatcher _) sparesRows_tied (by decide) (by rw [rows_tiedAfter]; simp)
  exact ⟨hmodels _ fun d _ row _ => Model.loopless_memberModel.grounded _,
    detached tiedState, tiedAfter, reachable_tied, rows_tiedAfter, hsame.trans enforce_tied⟩

/-- Sorting again turns the rows of the cycle round. -/
theorem not_always_sorted_again :
    ¬ ∀ m : Model, m.Built → m.sortBySubject.sortBySubject = m.sortBySubject := by
  intro hall
  have hsame := hall loopedModel ⟨_, rfl⟩
  have hsorted : loopedModel.sortBySubject.find? "p" "p" =
      some (loopedRules.sortBySubject loopedModel.hierarchy []).1 := rfl
  have hagain : loopedModel.sortBySubject.sortBySubject.find? "p" "p" =
      some ((loopedRules.sortBySubject loopedModel.hierarchy []).1.sortBySubject
        loopedModel.sortBySubject.hierarchy []).1 := rfl
  rw [hsame, hsorted, Model.hierarchy_sortBySubject, sortBySubject_loopedRules,
    sortBySubject_loopedRules_again] at hagain
  simp at hagain

end Enforcer

end AccessControl
