import AccessControl.Proofs.Enforcer.Edits
import AccessControl.Proofs.Enforcer.Enforcement
import AccessControl.Proofs.Model.Depth
/-!
# Decisions by the depth of subjects

Where the default effect goes by subjects, policy rows are sorted again after every load and every change of
rows that succeeds, so in every state the deepest subjects come first, and the first matching row that allows
or denies is one of a deepest subject.  A removal that fails because a role row has no link is the one change
without a sort; then no role row has a link, and the depth of every name is nought.

Only the default effect is asked whether rows are to be sorted.  A context can name another effect
definition that goes by subjects; unless the default one does so too, its rows are in the order in which they
came, and the rule for a role can win over the rule for its member.

    m.Edits k → m.Ranked → k.Ranked                                    (`Edits.ranked`)
    with such a default effect, a deepest subject decides              (`explained_by_deepest`)
    with another default effect it need not                            (`not_always_explained_by_deepest`)
-/

namespace AccessControl

namespace Model

/-- A role row of two fields: a name and the role that it has. -/
def RoleLink (m : Model) (child parent : String) : Prop := [child, parent] ∈ m.rows "g" "g"

/-- Where one role row has two fields, the links of the hierarchy are the role rows. -/
theorem hierarchy_link_iff {m : Model} (hm : m.WellFormed) {child parent : String}
    (htwo : m.RoleLink child parent) (a b : String) : m.hierarchy.Link a b ↔ m.RoleLink a b := by
  have hlen : ∀ row ∈ m.rows "g" "g", row.length = 2 := by
    unfold RoleLink rows at htwo
    cases hd : m.find? "g" "g" with
    | none => simp [hd] at htwo
    | some d =>
      rw [hd] at htwo
      have harity := (hm.tidy "g" "g" d hd).arity
      intro row hrow
      rw [rows_of_find? hd] at hrow
      rw [harity row hrow, ← harity _ htwo]
      rfl
  unfold Hierarchy.Link hierarchy RoleLink
  rw [List.mem_filterMap]
  constructor
  · rintro ⟨row, hrow, hlink⟩
    match row, hlen row hrow with
    | [x, y], _ =>
      obtain ⟨rfl, rfl⟩ := Prod.mk.inj (Option.some.inj hlink)
      exact hrow
  · exact fun hrow => ⟨[a, b], hrow, rfl⟩

/-- What cannot be linked is no link of the hierarchy either. -/
theorem hierarchy_eq_nil {m : Model} (h : ∀ row ∈ m.rows "g" "g", linkOf? row = none) :
    m.hierarchy = [] := by
  unfold hierarchy
  rw [List.filterMap_eq_nil_iff]
  intro row hrow
  have hnone := h row hrow
  match row, hnone with
  | [], _ => rfl
  | [_], _ => rfl

theorem linkOf?_eq_none_iff (row : Row) : linkOf? row = none ↔ row.length < 2 := by
  match row with
  | [] => simp [linkOf?]
  | [_] => simp [linkOf?]
  | _ :: _ :: _ => simp [linkOf?]

/-- Rows that go from one definition leave the others. -/
theorem find?_removeFiltered_other (m : Model) {sec name other otherName : String}
    (hne : ¬(sec = other ∧ name = otherName)) (index : Nat) (values : List String) :
    (m.apply (.removeFiltered sec name index values)).find? other otherName = m.find? other otherName := by
  refine outcome_of (P := fun k => k.find? other otherName = m.find? other otherName) rfl
    fun k removed hremove => ?_
  rcases removeFiltered_cases hremove with ⟨rfl, -⟩ | ⟨_, -, -, rfl⟩
  · rfl
  · rw [find?_modify, if_neg hne]

/-- Where a role definition has too few fields for a link, there is no hierarchy. -/
theorem hierarchy_eq_nil_of_evolves {m k : Model} (hm : m.WellFormed) (hk : m.Evolves k)
    {d : Definition} (hd : m.find? "g" "g" = some d) (hshort : d.fields.length < 2) :
    k.hierarchy = [] := by
  refine hierarchy_eq_nil fun row hrow => ?_
  unfold rows at hrow
  cases hfound : k.find? "g" "g" with
  | none => simp [hfound] at hrow
  | some new =>
    rw [hfound] at hrow
    obtain ⟨old, hold, heq⟩ := find?_of_bare hk.bare hfound
    obtain rfl := Option.some.inj (hd.symm.trans hold)
    rw [linkOf?_eq_none_iff, ((hk.wellFormed hm).tidy "g" "g" new hfound).arity row hrow,
      ← Definition.fields_eq heq]
    exact hshort

/-- Rows that go from a role definition in which one has no link leave the hierarchy. -/
theorem hierarchy_removeFiltered {m : Model} (hm : m.WellFormed) {name : String} {d : Definition}
    {row : Row} (hd : m.find? "g" name = some d) (hrow : row ∈ d.rows) (hlink : linkOf? row = none)
    (index : Nat) (values : List String) :
    (m.apply (.removeFiltered "g" name index values)).hierarchy = m.hierarchy := by
  by_cases hname : name = "g"
  · subst hname
    have hshort : d.fields.length < 2 := by
      rw [← (hm.tidy "g" "g" d hd).arity row hrow]
      exact (linkOf?_eq_none_iff row).1 hlink
    rw [hierarchy_eq_nil_of_evolves hm (m.evolves_apply rfl) hd hshort,
      hierarchy_eq_nil_of_evolves hm (Evolves.refl m) hd hshort]
  · exact hierarchy_of_find? (m.find?_removeFiltered_other (fun h => hname h.2) index values)

theorem ranked_clear (m : Model) : m.clear.Ranked := by
  intro name d hd
  rw [find?_clear m (Or.inl rfl)] at hd
  obtain ⟨old, -, rfl⟩ := Option.map_eq_some_iff.1 hd
  exact Definition.ranked_of_nil rfl _

theorem ranked_resorted {m : Model} (horder : Enforcer.ordersBySubject m = true) :
    m.resorted.Ranked := by
  unfold resorted
  rw [if_pos horder]
  exact ranked_sortBySubject m

/-- What was loaded is in the order of its subjects. -/
theorem ranked_sorted {m : Model} (horder : Enforcer.ordersBySubject m = true) : m.sorted.Ranked :=
  ranked_resorted ((ordersBySubject_of_bare m.bare_sortByPriority).trans horder)

theorem Edits.ranked {m k : Model} (h : m.Edits k) (hm : m.WellFormed)
    (horder : Enforcer.ordersBySubject m = true) (hranked : m.Ranked) : k.Ranked := by
  cases h with
  | same => exact hranked
  | changed hop =>
    exact ranked_resorted ((ordersBySubject_of_bare (m.evolves_apply hop).bare).trans horder)
  | unlinked hd hrow hlink index values =>
    intro other p hp
    rw [hierarchy_removeFiltered hm hd hrow hlink]
    rw [m.find?_removeFiltered_other (by simp)] at hp
    exact hranked other p hp
  | cleared => exact m.ranked_clear
  | loaded hlines =>
    exact ranked_sorted ((ordersBySubject_of_bare (evolves_loaded hlines).bare).trans horder)

end Model

theorem Deeper.exists_link {link : String → String → Prop} {name other : String}
    (h : Deeper link name other) : ∃ child parent, link child parent := by
  obtain ⟨n, hchain, hnot⟩ := h
  cases hchain with
  | top => exact absurd (.top other) hnot
  | up hlink _ => exact ⟨_, _, hlink⟩

/-- Without a domain field the hierarchy knows a subject by its name. -/
theorem Definition.subject_eq_field {d : Definition} {i : Nat}
    (hsub : d.fieldIndex (d.key ++ "_sub") = some i) (hdom : d.fieldIndex (d.key ++ "_dom") = none)
    {row : Row} {name : String} (hrow : row[i]? = some name) : d.subject row = name := by
  simp [Definition.subject, hsub, hdom, hrow, Hierarchy.key]

namespace Enforcer

variable {σ : Type}

/-- When a row explains a decision by the depth of subjects, over a policy definition with a subject and no
domain and role rows without cycles, no matching row that allows or denies has a deeper subject. -/
def ExplainedByDeepest (e : Enforcer σ) : Prop :=
  ∀ (ctx : Context) (request : List Value) (r p effect matcher : Definition) (program : Program)
    (i : Nat) (decision : Decision) (row other : Row) (subject deeper : String),
    e.model.find? "r" ctx.request = some r → request.length = r.fields.length →
    e.model.find? "p" ctx.policy = some p → p.fieldIndex (ctx.policy ++ "_sub") = some i →
    p.fieldIndex (ctx.policy ++ "_dom") = none →
    e.model.find? "e" ctx.effect = some effect → EffectKind.ofText effect.value = .ok .subjectPriority →
    e.model.find? "m" ctx.matcher = some matcher →
    Program.ofSource e.scope (joinReferences matcher.value) = .ok program →
    Loopless e.model.RoleLink → (e.enforce ctx request).1 = .ok decision → row ∈ decision.explain →
    other ∈ e.matching r p program request → p.statedEffect other ≠ .indeterminate →
    row[i]? = some subject → other[i]? = some deeper → ¬ Deeper e.model.RoleLink deeper subject

/-- A disabled enforcer explains nothing. -/
theorem enabled_of_explained {e : Enforcer σ} {ctx : Context} {request : List Value}
    {decision : Decision} {row : Row} (h : (e.enforce ctx request).1 = .ok decision)
    (hrow : row ∈ decision.explain) : e.config.enabled = true := by
  by_contra hoff
  unfold enforce at h
  rw [if_neg hoff] at h
  rw [← Except.ok.inj h] at hrow
  simp at hrow

theorem Valid.explainedByDeepest {e : Enforcer σ} (hvalid : e.Valid)
    (heffector : e.effector = .standard) (hsubject : e.model.BySubject) : e.ExplainedByDeepest := by
  intro ctx request r p effect matcher program i decision row other subject deeper hr harity hp hsub hdom
    heffect hkind hmatcher hcompile hloop hdecision hrow hother hcounts hname hdeeper hlt
  obtain ⟨child, parent, htwo⟩ := hlt.exists_link
  have hlinks : e.model.hierarchy.Link = e.model.RoleLink := by
    funext a b
    exact propext (Model.hierarchy_link_iff hvalid.model htwo a b)
  have hsorted := hsubject (hlinks ▸ hloop) ctx.policy p hp
  rw [hlinks] at hsorted
  have hmatching : (e.matching r p program request).Pairwise fun a b =>
      ¬ Deeper e.model.RoleLink (p.subject b) (p.subject a) := hsorted.filter _
  obtain ⟨first, -, -, hbefore, hscan⟩ := fullScan_first (Or.inr rfl) hmatching hother hcounts
  have hresult := hvalid.enforce_eq (enabled_of_explained hdecision hrow) heffector hr hp heffect hkind
    hmatcher harity hcompile (List.ne_nil_of_mem (List.mem_of_mem_filter hother))
  rw [hdecision, hscan] at hresult
  obtain rfl : row = first := by
    rw [Except.ok.inj hresult] at hrow
    exact List.mem_singleton.1 hrow
  have hkey := hvalid.model.key "p" ctx.policy p hp
  rw [← hkey] at hsub hdom
  rcases hbefore other hother hcounts with rfl | hnot
  · -- a subject is not deeper than itself
    obtain rfl := Option.some.inj (hname.symm.trans hdeeper)
    obtain ⟨n, hchain, hnone⟩ := hlt
    exact hnone hchain
  · rw [Definition.subject_eq_field hsub hdom hname, Definition.subject_eq_field hsub hdom hdeeper]
      at hnot
    exact hnot hlt

variable [PolicyStore σ]

theorem Reachable.ranked {e : Enforcer σ}
    (h : Reachable Made (fun _ c => c.keepsDefinitions = true) e)
    (horder : ordersBySubject e.model = true) : e.model.Ranked := by
  refine h.model_induction (P := fun m => ordersBySubject m = true → m.Ranked)
    (fun _ hmade => hmade) (fun e m k lines _ _ hlines _ horder => ?_)
    (fun m k hm hedits hranked horder => ?_) horder
  · exact Model.ranked_sorted ((Model.ordersBySubject_of_bare (evolves_sorted k).bare).symm.trans
      horder)
  · have hbefore := (Model.ordersBySubject_of_bare hedits.evolves.bare).symm.trans horder
    exact hedits.ranked hm hbefore (hranked hbefore)

theorem Reachable.bySubject {e : Enforcer σ}
    (h : Reachable Made (fun _ c => c.keepsDefinitions = true) e)
    (horder : ordersBySubject e.model = true) : e.model.BySubject :=
  (h.ranked horder).bySubject

/-! ## One member of one role -/

/-- A model with a default effect, and another one that goes by subjects. -/
def rankedModel (default : EffectKind) : Model :=
  .build [.define "r" "r" "sub", .define "p" "p" "sub, eft", .define "g" "g" "_, _",
    .define "e" "e" default.text, .define "e" "e2" EffectKind.subjectPriority.text,
    .define "m" "m" "g(r.sub, p.sub)"]

/-- The link of a member to its role. -/
def memberLink : RoleManagers := [("g", { domains := oneLink noDomain "ann" "staff", rejectCycles := true })]

/-- What the role may, and what the member may not. -/
def roleThenMember : List Row := [["staff", "allow"], ["ann", "deny"]]

/-- The policy definition with these rows. -/
def rankedRows : Definition := (Definition.make "p" "p" "sub, eft").insertAll roleThenMember

/-- The program of the matcher. -/
def rankedProgram : Program :=
  ⟨joinReferences "g(r.sub, p.sub)", .call "g" [.field "r_sub", .field "p_sub"]⟩

set_option maxRecDepth 20000 in
theorem ofSource_rankedMatcher :
    Program.ofSource ⟨.builtins, memberLink⟩ (joinReferences "g(r.sub, p.sub)") = .ok rankedProgram := by
  cbv

theorem ordersBySubject_rankedModel (default : EffectKind) :
    ordersBySubject (rankedModel default) = (default == .subjectPriority) := by
  have hfind : (rankedModel default).find? "e" "e" = some (.make "e" "e" default.text) := by
    cases default <;> rfl
  have hkind : EffectKind.ofText (Definition.make "e" "e" default.text).value = .ok default :=
    EffectKind.ofText_text default
  unfold ordersBySubject
  rw [hfind, Option.any_some, hkind]

/-- The member is one level below its role. -/
theorem sortBySubject_rankedRows : (rankedRows.sortBySubject [("ann", "staff")] []).1 =
    { rankedRows with rows := [["ann", "deny"], ["staff", "allow"]] } :=
  rankedRows.sortBySubject_eq (by cbv)

/-- What the member is told in the context of the other effect. -/
theorem enforce_ranked {model : Model} (hvalid : (strict model memberLink).Valid) {p : Definition}
    (hr : model.find? "r" "r" = some (.make "r" "r" "sub")) (hp : model.find? "p" "p" = some p)
    (heffect : model.find? "e" "e2" = some (.make "e" "e2" EffectKind.subjectPriority.text))
    (hmatcher : model.find? "m" "m" = some (.make "m" "m" "g(r.sub, p.sub)")) (hrows : p.rows ≠ []) :
    ((strict model memberLink).enforce { effect := "e2" } [.str "ann"]).1 =
      .ok (fullScan .subjectPriority p.statedEffect
        ((strict model memberLink).matching (.make "r" "r" "sub") p rankedProgram [.str "ann"])) :=
  hvalid.enforce_eq rfl rfl hr hp heffect (EffectKind.ofText_text .subjectPriority) hmatcher rfl
    ofSource_rankedMatcher hrows

/-- The member is deeper than its role. -/
theorem deeper_of_single {link : String → String → Prop} {child parent : String}
    (h : ∀ a b, link a b → a = child ∧ b = parent) (hlink : link child parent) (hne : child ≠ parent) :
    Deeper link child parent := by
  refine ⟨1, .up hlink (.top parent), fun hchain => ?_⟩
  obtain ⟨other, hother, -⟩ := hasChain_succ_iff.1 hchain
  exact hne (h _ _ hother).1.symm

/-! ## Top theorem (proved from the lemmas above) -/

/-- **A deepest subject decides.**  In every state that calls lead to from a new enforcer without taking
another model, whatever its store answers and whether calls succeed or not, and when the default effect goes
by subjects: a decision by the depth of subjects, under any context, that a row explains is explained by a
row to which no matching row that allows or denies is deeper. -/
theorem explained_by_deepest {e : Enforcer σ}
    (h : Reachable Made (fun _ c => c.keepsDefinitions = true) e)
    (hdefault : ∃ d, e.model.find? "e" "e" = some d ∧
      EffectKind.ofText d.value = .ok .subjectPriority)
    (heffector : e.effector = .standard) : e.ExplainedByDeepest :=
  (h.valid fun _ hmade => hmade).explainedByDeepest heffector
    (h.bySubject (e.model.ordersBySubject_iff.2 hdefault))

set_option maxRecDepth 20000 in
/-- The rule for the member decides, although the one for its role came first. -/
theorem explained_by_deepest_member : ∃ e : Enforcer MemoryStore,
    Reachable Made (fun _ c => c.keepsDefinitions = true) e ∧ e.ExplainedByDeepest ∧
      (e.enforce { effect := "e2" } [.str "ann"]).1 = .ok ⟨false, [["ann", "deny"]]⟩ := by
  let bare := rankedModel .subjectPriority
  let model1 := (bare.modify "g" "g" (·.insertAll [["ann", "staff"]])).resorted
  let model2 := (model1.modify "p" "p" (·.insertAll roleThenMember)).resorted
  let fresh : RoleManagers := [("g", { rejectCycles := true })]
  have h0 : Reachable Made (fun _ c => c.keepsDefinitions = true) (strict bare fresh) :=
    .start ⟨bare, {}, { autoSave := false, rejectCycles := true }, ⟨_, rfl⟩, rfl⟩
  have h1 : Reachable Made (fun _ c => c.keepsDefinitions = true) (strict model1 memberLink) := by
    have hadd := perform_addRows_resorted (h0.valid fun _ h => h) (Or.inr rfl) rfl
      (show (strict bare fresh).followRows "g" "g" .add [["ann", "staff"]] =
        (.ok (), strict bare memberLink) from rfl) (persist_unsaved rfl _) (by decide)
    have hstep := h0.step (.addRows "g" "g" [["ann", "staff"]]) rfl
    rwa [hadd] at hstep
  have h2 : Reachable Made (fun _ c => c.keepsDefinitions = true) (strict model2 memberLink) := by
    have hadd := perform_addRows_resorted (h1.valid fun _ h => h) (Or.inl rfl) rfl
      (show (strict model1 memberLink).followRows "p" "p" .add roleThenMember =
        (.ok (), strict model1 memberLink) from rfl) (persist_unsaved rfl _) (by decide)
    have hstep := h1.step (.addRows "p" "p" roleThenMember) rfl
    rwa [hadd] at hstep
  have hp : model2.find? "p" "p" =
      some { rankedRows with rows := [["ann", "deny"], ["staff", "allow"]] } := by
    rw [← sortBySubject_rankedRows]
    rfl
  have hdecision := enforce_ranked (h2.valid fun _ h => h) rfl hp rfl rfl (by decide)
  exact ⟨_, h2, explained_by_deepest h2 ⟨_, rfl, EffectKind.ofText_text .subjectPriority⟩ rfl,
    hdecision.trans rfl⟩

set_option maxRecDepth 20000 in
/-- Under another default effect the rule for a role, which came first, wins over the rule for its
member. -/
theorem not_always_explained_by_deepest : ¬ ∀ e : Enforcer MemoryStore,
    Reachable Made (fun _ c => c.keepsDefinitions = true) e → e.effector = .standard →
      e.ExplainedByDeepest := by
  intro hall
  let bare := rankedModel .allowOverride
  let linked := bare.modify "g" "g" (·.insertAll [["ann", "staff"]])
  let model := linked.modify "p" "p" (·.insertAll roleThenMember)
  have horder : ordersBySubject bare = false := ordersBySubject_rankedModel .allowOverride
  have h0 : Reachable Made (fun _ c => c.keepsDefinitions = true)
      (strict bare [("g", { rejectCycles := true })]) :=
    .start ⟨bare, {}, { autoSave := false, rejectCycles := true }, ⟨_, rfl⟩, rfl⟩
  have h1 : Reachable Made (fun _ c => c.keepsDefinitions = true) (strict linked memberLink) :=
    h0.strict_addRows (fun _ h => h) rfl (Or.inr rfl) rfl rfl (by decide) horder
  have horder' : ordersBySubject linked = false :=
    (ordersBySubject_modify bare (Or.inr rfl) _).trans horder
  have h2 : Reachable Made (fun _ c => c.keepsDefinitions = true) (strict model memberLink) :=
    h1.strict_addRows (fun _ h => h) rfl (Or.inl rfl) rfl rfl (by decide) horder'
  have hlink : ∀ a b, model.RoleLink a b → a = "ann" ∧ b = "staff" := by
    intro a b hab
    have hmem : [a, b] ∈ [["ann", "staff"]] := hab
    simpa using hmem
  have hdecision := enforce_ranked (h2.valid fun _ h => h) rfl (p := rankedRows) rfl rfl rfl (by decide)
  have hnot := hall _ h2 rfl { effect := "e2" } [.str "ann"] _ _ _ _ _ 0 _ ["staff", "allow"]
    ["ann", "deny"] "staff" "ann" rfl rfl rfl rfl rfl rfl (EffectKind.ofText_text .subjectPriority) rfl
    ofSource_rankedMatcher (loopless_of_single hlink (by decide)) hdecision
  exact hnot (by decide) (by decide) (by decide) rfl rfl
    (deeper_of_single hlink (List.mem_singleton.2 rfl) (by decide))

end Enforcer

end AccessControl
