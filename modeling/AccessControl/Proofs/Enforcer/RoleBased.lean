import AccessControl.Proofs.Enforcer.Agreement
import AccessControl.Proofs.Enforcer.Enforcement
import AccessControl.Proofs.Roles.Inheritance
import Mathlib
/-!
# Role-based access

The model in which a subject may do what one of its roles may.  In every state of a run that keeps its
rules, a request is allowed exactly when a stored policy row grants it to the subject itself, or to a role
that a chain of stored role rows leads to.

    the matcher holds for a row x, y, z exactly when x is a role and y, z are what is asked
                                                                       (`holds_matcher`)
    a query for a role follows the stored role rows                    (`RoleBased.hasLink_iff`)
    a request is allowed exactly when it is granted                    (`enforce_iff_granted`)
-/

namespace AccessControl

/-- The text of the model. -/
def rbacText : String :=
  "[request_definition]\nr = sub, obj, act\n[policy_definition]\np = sub, obj, act\n" ++
  ("[role_definition]\ng = _, _\n[policy_effect]\ne = some(where (p.eft == allow))\n" ++
  "[matchers]\nm = g(r.sub, p.sub) && r.obj == p.obj && r.act == p.act\n")

def rbacMatcher : String := "g(r.sub, p.sub) && r.obj == p.obj && r.act == p.act"

/-- The model of the text. -/
def rbacModel : Model :=
  .build [.define "r" "r" "sub, obj, act", .define "p" "p" "sub, obj, act", .define "g" "g" "_, _",
    .define "e" "e" "some(where (p.eft == allow))", .define "m" "m" rbacMatcher]

theorem append_ofList (as bs cs : List Char) :
    String.ofList as ++ (String.ofList bs ++ String.ofList cs) = String.ofList (as ++ (bs ++ cs)) := by
  rw [String.ofList_append, String.ofList_append]

theorem logicalLines_ofList (cs : List Char) :
    logicalLines (String.ofList cs) = logicalLinesFrom 1 none (Text.lines cs) := by
  rw [logicalLines, String.toList_ofList]

set_option maxRecDepth 20000 in
/-- The lines of the text, read from its characters. -/
theorem readLines_rbacText : ∃ cs, rbacText = String.ofList cs ∧
    ({} : Model).readLines none (logicalLinesFrom 1 none (Text.lines cs)) = .ok rbacModel :=
  ⟨_, append_ofList _ _ _, rfl⟩

set_option maxRecDepth 20000 in
theorem ofText_rbacText : Model.ofText rbacText = .ok rbacModel := by
  obtain ⟨cs, hcs, hread⟩ := readLines_rbacText
  have heffects : rbacModel.checkEffects = .ok () := by rfl
  have hmissing : (requiredSections.filter fun e => !rbacModel.hasSection e.2) = [] := by rfl
  rw [hcs, Model.ofText, logicalLines_ofList, hread]
  dsimp only
  rw [hmissing, heffects]
  rfl

/-- The expression of the matcher. -/
def rbacExpr : Expr :=
  .binary .and
    (.binary .and (.call "g" [.field "r_sub", .field "p_sub"])
      (.binary .eq (.field "r_obj") (.field "p_obj")))
    (.binary .eq (.field "r_act") (.field "p_act"))

theorem ofText_rbacMatcher : Expr.ofText (joinReferences rbacMatcher) = .ok rbacExpr := by cbv

/-! ## The matcher on one row -/

/-- The names of the matcher for a request and a row. -/
def rbacBindings (s o a : String) (row : Row) : Bindings :=
  ⟨["r_sub", "r_obj", "r_act"], [.str s, .str o, .str a], ["p_sub", "p_obj", "p_act"], row⟩

theorem looseEq_str (a b : String) : (Value.str a).looseEq (.str b) = (a == b) := rfl

theorem holds_matcher {scope : Scope} {m : RoleManager} (hm : scope.managers.find "g" = some m)
    (source : String) (s o a x y z : String) :
    Program.holds ⟨source, rbacExpr⟩ scope (rbacBindings s o a [x, y, z]) =
      (m.hasLink s x none && o == y && a == z) := by
  have hcall : ∀ evalText, scope.call evalText "g" [.str s, .str x] =
      pure (.bool (m.hasLink s x none)) := by
    intro evalText
    simp [Scope.call, hm, RoleManager.answer, EvalM.lift, Value.asString, Bind.bind, Except.bind]
  have hrsub : (rbacBindings s o a [x, y, z]).lookup "r_sub" = some (.str s) := rfl
  have hpsub : (rbacBindings s o a [x, y, z]).lookup "p_sub" = some (.str x) := rfl
  have hrobj : (rbacBindings s o a [x, y, z]).lookup "r_obj" = some (.str o) := rfl
  have hpobj : (rbacBindings s o a [x, y, z]).lookup "p_obj" = some (.str y) := rfl
  have hract : (rbacBindings s o a [x, y, z]).lookup "r_act" = some (.str a) := rfl
  have hpact : (rbacBindings s o a [x, y, z]).lookup "p_act" = some (.str z) := rfl
  unfold Program.holds Program.evaluate Expr.evalAt rbacExpr maxEvalDepth
  simp only [Expr.evalWith, Expr.evalAll, hrsub, hpsub, hrobj, hpobj, hract, hpact, pure_bind, hcall]
  cases m.hasLink s x none <;> cases hobj : (o == y) <;> cases hact : (a == z) <;>
    simp [EvalM.lift, Value.asBool, BinaryOp.apply, looseEq_str, hobj, hact] <;> rfl

/-! ## What a run keeps -/

/-- A chain of role rows from a name to a role, of at least one row and at most `level`. -/
def RoleChain (rows : List Row) (level : Nat) (name role : String) : Prop :=
  ∃ k, 1 ≤ k ∧ k ≤ level ∧ ∃ names : Nat → String, names 0 = name ∧
    (∀ i < k, [names i, names (i + 1)] ∈ rows) ∧ names k = role

/-- The definitions are those of the text, with rows. -/
theorem Model.find?_rbac {m : Model} (h : m.bare = rbacModel.bare) (sec name : String) {d : Definition}
    (hd : rbacModel.find? sec name = some d) : ∃ k, m.find? sec name = some k ∧ k.bare = d.bare :=
  find?_of_bare h.symm hd

namespace Enforcer

variable {σ : Type}

/-- The model is the one of the text, and nothing but its rows decides. -/
structure RoleBased (e : Enforcer σ) : Prop where
  inStep : e.InStep "g"
  enabled : e.config.enabled = true
  effector : e.effector = .standard
  model : e.model.bare = rbacModel.bare
  plain : ∀ m, e.managers.find "g" = some m → m.maxLevel = e.config.maxLevel ∧ m.nameMatch = none

set_option maxRecDepth 20000 in
theorem RoleBased.roles {e : Enforcer σ} (h : e.RoleBased) :
    ∃ g, e.model.find? "g" "g" = some g ∧ g.fields.length = 2 := by
  obtain ⟨g, hg, hbare⟩ := Model.find?_rbac h.model "g" "g" rfl
  refine ⟨g, hg, ?_⟩
  rw [Definition.fields_eq hbare]
  rfl

/-- There is no definition whose rows could stop a rebuild. -/
theorem RoleBased.unblocked {e : Enforcer σ} (h : e.RoleBased) : e.Unblocked "g" := by
  intro other hother d m hd _ hwide
  unfold namesUpTo at hother
  rw [Model.roleNames_of_bare h.model] at hother
  have hname : other = "g" := List.mem_singleton.1 (hother : other ∈ ["g"])
  subst hname
  obtain ⟨g, hg, hlen⟩ := h.roles
  rw [hg] at hd
  rw [← Option.some.inj hd, hlen] at hwide
  omega

/-- A change of rows, links and store. -/
theorem RoleBased.of_sameSetup {e k : Enforcer σ} (h : e.RoleBased) (hk : e.SameSetup k) (hstep : k.InStep "g") :
    k.RoleBased where
  inStep := hstep
  enabled := by
    rw [hk.config]
    exact h.enabled
  effector := hk.effector.trans h.effector
  model := hk.model.bare.trans h.model
  plain m hm := by
    obtain ⟨old, hold, hclear⟩ := hk.find_manager hm
    have hlevel : m.clear.maxLevel = old.clear.maxLevel := by rw [hclear]
    have hname : m.clear.nameMatch = old.clear.nameMatch := by rw [hclear]
    rw [hk.config]
    exact ⟨hlevel.trans (h.plain old hold).1, hname.trans (h.plain old hold).2⟩

/-- A change of other things. -/
theorem RoleBased.of_eq {e k : Enforcer σ} (h : e.RoleBased) (hvalid : k.Valid)
    (henabled : k.config.enabled = true) (hauto : k.config.autoLinks = true)
    (hlevel : k.config.maxLevel = e.config.maxLevel) (heffector : k.effector = e.effector)
    (hmodel : k.model = e.model) (hmanagers : k.managers = e.managers) : k.RoleBased where
  inStep := h.inStep.of_eq hvalid hauto hmodel hmanagers
  enabled := henabled
  effector := heffector.trans h.effector
  model := hmodel ▸ h.model
  plain := by
    rw [hmanagers, hlevel]
    exact h.plain

/-! ## Decisions -/

/-- A query for a role follows the stored role rows. -/
theorem RoleBased.hasLink_iff {e : Enforcer σ} (h : e.RoleBased) {m : RoleManager}
    (hm : e.managers.find "g" = some m) (name role : String) :
    m.hasLink name role none = true ↔
      role = name ∨ RoleChain (e.model.rows "g" "g") e.config.maxLevel name role := by
  obtain ⟨g, hg, hlen⟩ := h.roles
  have hdefined := (h.inStep.valid.model.toNamed.mem_roleNames "g").2 ⟨g, hg⟩
  obtain ⟨settings, k, hk, -, hsound, hfollows⟩ :=
    h.inStep.agrees "g" (mem_upTo_self hdefined) g hg (by omega)
  obtain rfl : k = m := Option.some.inj (hk.symm.trans hm)
  obtain ⟨hlevel, hplain⟩ := h.plain k hm
  have hnames : ∀ x y, k.Names x y ↔ x = y := by
    intro x y
    simp [RoleManager.Names, hplain]
  have hlink : ∀ x y, k.Link noDomain x y ↔ [x, y] ∈ g.rows := by
    intro x y
    rw [hfollows.link_iff]
    constructor
    · rintro ⟨row, hrow, hl⟩
      have harity := (h.inStep.valid.model.tidy "g" "g" g hg).arity row hrow
      obtain ⟨rest, rfl, -⟩ := (linkOf?_eq_some_iff row noDomain x y).1 hl
      simp only [List.length_cons, hlen] at harity
      obtain rfl : rest = [] := List.eq_nil_of_length_eq_zero (by omega)
      exact hrow
    · intro hrow
      exact ⟨[x, y], hrow, rfl⟩
  have hstep : ∀ x y, k.DirectRole none x y ↔ [x, y] ∈ g.rows := by
    intro x y
    have hsees : ∀ key, k.Sees none key ↔ key = noDomain := fun key => Iff.rfl
    simp only [RoleManager.DirectRole, hsees, hnames, exists_eq_left, exists_eq_left', hlink]
  rw [hsound.toWellFormed.hasLink_iff, hnames, hlevel, Model.rows_of_find? hg]
  simp only [RoleManager.roleAway_iff, hstep, hnames, RoleChain, eq_comm]

/-- The matcher compiles wherever there is a manager to call. -/
theorem ofSource_rbacMatcher {scope : Scope} {m : RoleManager} (hm : scope.managers.find "g" = some m) :
    Program.ofSource scope (joinReferences rbacMatcher) =
      .ok ⟨joinReferences rbacMatcher, rbacExpr⟩ := by
  have hcontains : scope.managers.contains "g" = true := by
    rw [Table.contains_iff]
    by_contra hnot
    rw [← Table.find_eq_none_iff, hm] at hnot
    simp at hnot
  have hcalls : rbacExpr.calls = ["g"] := rfl
  have hknown : scope.unknownCall? rbacExpr = none := by
    simp [Scope.unknownCall?, hcalls, Scope.isCallable, hcontains]
  unfold Program.ofSource
  rw [ofText_rbacMatcher]
  dsimp only
  rw [hknown]

/-- The rows that hold for a request. -/
theorem mem_matching_iff {e : Enforcer σ} {m : RoleManager} (hm : e.managers.find "g" = some m)
    {r p : Definition} (hr : r.fields = ["r_sub", "r_obj", "r_act"])
    (hp : p.fields = ["p_sub", "p_obj", "p_act"]) (htidy : p.Tidy) (source s o a : String) (row : Row) :
    row ∈ e.matching r p ⟨source, rbacExpr⟩ [.str s, .str o, .str a] ↔
      ∃ t, row = [t, o, a] ∧ row ∈ p.rows ∧ m.hasLink s t none = true := by
  unfold matching
  rw [List.mem_filter, hr, hp]
  constructor
  · rintro ⟨hrow, hholds⟩
    have hlen := htidy.arity row hrow
    rw [hp] at hlen
    obtain ⟨x, y, z, rfl⟩ := List.length_eq_three.1 hlen
    have hmatch : (m.hasLink s x none && o == y && a == z) = true :=
      (holds_matcher hm source s o a x y z).symm.trans hholds
    simp only [Bool.and_eq_true, beq_iff_eq] at hmatch
    obtain ⟨⟨hlink, rfl⟩, rfl⟩ := hmatch
    exact ⟨x, rfl, hrow, hlink⟩
  · rintro ⟨t, rfl, hrow, hlink⟩
    refine ⟨hrow, (holds_matcher hm source s o a t o a).trans ?_⟩
    simp [hlink]

/-- Where the definitions are those of the text, the decision over one or more rows is whether some row grants
the request to a role. -/
theorem Valid.enforce_rbac {e : Enforcer σ} (he : e.Valid) (hon : e.config.enabled = true)
    (heffector : e.effector = .standard) (hmodel : e.model.bare = rbacModel.bare) {m : RoleManager}
    (hm : e.managers.find "g" = some m) (hrows : e.model.rows "p" "p" ≠ []) (s o a : String) :
    ∃ decision, (e.enforce {} [.str s, .str o, .str a]).1 = .ok decision ∧
      (decision.allowed = true ↔
        ∃ t, [t, o, a] ∈ e.model.rows "p" "p" ∧ m.hasLink s t none = true) := by
  obtain ⟨r, hr, hrbare⟩ := Model.find?_rbac hmodel "r" "r" rfl
  obtain ⟨p, hp, hpbare⟩ := Model.find?_rbac hmodel "p" "p" rfl
  obtain ⟨effect, heffect, hebare⟩ := Model.find?_rbac hmodel "e" "e" rfl
  obtain ⟨matcher, hmatcher, hmbare⟩ := Model.find?_rbac hmodel "m" "m" rfl
  have hrfields : r.fields = ["r_sub", "r_obj", "r_act"] := Definition.fields_eq hrbare
  have hpfields : p.fields = ["p_sub", "p_obj", "p_act"] := Definition.fields_eq hpbare
  have hkind : EffectKind.ofText effect.value = .ok .allowOverride := by
    rw [Definition.value_eq hebare]
    exact EffectKind.ofText_text .allowOverride
  have hcompile : Program.ofSource e.scope (joinReferences matcher.value) =
      .ok ⟨joinReferences rbacMatcher, rbacExpr⟩ := by
    rw [Definition.value_eq hmbare]
    exact ofSource_rbacMatcher hm
  have hstated : ∀ row, p.statedEffect row = .allow := by
    intro row
    unfold Definition.statedEffect Definition.fieldIndex
    rw [hpfields, Definition.key_eq hpbare]
    rfl
  rw [Model.rows_of_find? hp] at hrows ⊢
  have hdecision : (e.enforce {} [.str s, .str o, .str a]).1 = _ :=
    he.enforce_eq hon heffector hr hp heffect hkind hmatcher (by rw [hrfields]; rfl) hcompile hrows
  refine ⟨_, hdecision, ?_⟩
  rw [allowed_fullScan_allowOverride]
  simp only [hstated, and_true, mem_matching_iff hm hrfields hpfields (he.model.tidy "p" "p" p hp)]
  constructor
  · rintro ⟨row, t, rfl, hrow, hlink⟩
    exact ⟨t, hrow, hlink⟩
  · rintro ⟨t, hrow, hlink⟩
    exact ⟨[t, o, a], t, rfl, hrow, hlink⟩

/-- Over one or more rows the decision is whether some row grants the request to a role. -/
theorem RoleBased.enforce_eq {e : Enforcer σ} (h : e.RoleBased) {m : RoleManager}
    (hm : e.managers.find "g" = some m) (hrows : e.model.rows "p" "p" ≠ []) (s o a : String) :
    ∃ decision, (e.enforce {} [.str s, .str o, .str a]).1 = .ok decision ∧
      (decision.allowed = true ↔
        ∃ t, [t, o, a] ∈ e.model.rows "p" "p" ∧ m.hasLink s t none = true) :=
  h.inStep.valid.enforce_rbac h.enabled h.effector h.model hm hrows s o a

/-! ## Every state -/

section

variable [PolicyStore σ]

/-- The calls that leave the rules of decisions alone: those that change rows, links or the store, or
turn nothing off that decides. -/
def Call.KeepsRules : Call σ → Prop
  | .enable on | .enableAutoLinks on => on = true
  | .setEffector _ | .setModel .. | .setManager .. | .setNameMatch .. | .setDomainMatch .. => False
  | _ => True

/-- A new enforcer of the model in the text, with enforcement and automatic links on. -/
def NewRoleBased (e : Enforcer σ) : Prop :=
  ∃ model store config, Model.ofText rbacText = .ok model ∧ make model store config = .ok e ∧
    config.enabled = true ∧ config.autoLinks = true

theorem NewRoleBased.made {e : Enforcer σ} (h : e.NewRoleBased) : e.Made := by
  obtain ⟨model, store, config, htext, hmake, -⟩ := h
  exact ⟨model, store, config, Model.built_ofText htext, hmake⟩

theorem NewRoleBased.roleBased {e : Enforcer σ} (h : e.NewRoleBased) : e.RoleBased := by
  have hmade := h.made
  obtain ⟨model, store, config, htext, hmake, hon, hauto⟩ := h
  obtain rfl : rbacModel = model := Except.ok.inj (ofText_rbacText.symm.trans htext)
  have hsetup := sameSetup_load (make_ok hmake).2
  have hconfig : e.config = config := hsetup.config
  have heffector : e.effector = .standard := hsetup.effector
  have hbare : e.model.bare = rbacModel.bare := hsetup.model.bare
  rw [← hconfig] at hon hauto
  refine ⟨hmade.inStep hauto "g", hon, heffector, hbare, fun m hm => ?_⟩
  obtain ⟨old, hold, hclear⟩ := hsetup.find_manager hm
  rcases find_foldl_addManager hold with hnone | rfl
  · simp at hnone
  · have hlevel : m.clear.maxLevel = config.maxLevel := by rw [hclear]; rfl
    have hname : m.clear.nameMatch = none := by rw [hclear]; rfl
    rw [hconfig]
    exact ⟨hlevel, hname⟩

theorem RoleBased.perform {e : Enforcer σ} (h : e.RoleBased) (c : Call σ) (hc : c.KeepsRules) :
    (e.perform c).2.RoleBased := by
  have hadmitted : c.Admitted e := by
    cases c with
    | setModel | setManager => exact hc.elim
    | enableAutoLinks => exact hc
    | _ => trivial
  have hstep := h.inStep.perform c hadmitted fun _ _ => h.unblocked
  cases hrows : c.onRows with
  | true => exact h.of_sameSetup (e.sameSetup_perform hrows) hstep
  | false =>
    cases c with
    | enable on => exact h.of_eq hstep.valid hc hstep.auto rfl rfl rfl rfl
    | enableLog | enableAutoSave | enableAutoLinks | addFunction | takeTrace =>
      exact h.of_eq hstep.valid h.enabled hstep.auto rfl rfl rfl rfl
    | removeFunction name =>
      revert hstep
      unfold Enforcer.perform Enforcer.removeFunction
      dsimp only
      split
      · exact fun hstep => h.of_eq hstep.valid h.enabled hstep.auto rfl rfl rfl rfl
      · exact fun _ => h
    | enforce ctx request =>
      obtain ⟨evaluation, heq, -⟩ := e.enforce_frame ctx request
      have hk : (e.perform (.enforce ctx request)).2 = { e with evaluation } := heq
      rw [hk] at hstep ⊢
      exact h.of_eq hstep.valid h.enabled hstep.auto rfl rfl rfl rfl
    | setEffector | setModel | setManager | setNameMatch | setDomainMatch => exact hc.elim
    | _ => simp [Call.onRows] at hrows

theorem Reachable.roleBased {e : Enforcer σ}
    (h : Reachable NewRoleBased (fun _ c => c.KeepsRules) e) : e.RoleBased := by
  induction h with
  | start h => exact h.roleBased
  | step c _ hc ih => exact ih.perform c hc

/-! ## Top theorem (proved from the lemmas above) -/

/-- **Role-based decisions.**  In every state of a run over the model in the text that holds policy rows, a
request is decided, and it is allowed exactly when a stored row grants it to the subject, or to a role that a
chain of stored role rows within the level leads to. -/
theorem enforce_iff_granted {e : Enforcer σ}
    (h : Reachable NewRoleBased (fun _ c => c.KeepsRules) e) (hrows : e.model.rows "p" "p" ≠ [])
    (s o a : String) :
    ∃ decision, (e.enforce {} [.str s, .str o, .str a]).1 = .ok decision ∧
      (decision.allowed = true ↔ ∃ t, [t, o, a] ∈ e.model.rows "p" "p" ∧
        (t = s ∨ RoleChain (e.model.rows "g" "g") e.config.maxLevel s t)) := by
  have hbased := h.roleBased
  obtain ⟨g, hg, -⟩ := hbased.roles
  have hkey := hbased.inStep.managed "g"
    ((hbased.inStep.valid.model.toNamed.mem_roleNames "g").2 ⟨g, hg⟩)
  obtain ⟨m, hm⟩ := Option.ne_none_iff_exists'.1
    (mt (Table.find_eq_none_iff e.managers "g").1 (not_not_intro hkey))
  obtain ⟨decision, hdecision, hallowed⟩ := hbased.enforce_eq hm hrows s o a
  refine ⟨decision, hdecision, ?_⟩
  rw [hallowed]
  simp only [hbased.hasLink_iff hm]

end

set_option maxRecDepth 20000 in
/-- What is granted to a role is allowed to its users. -/
theorem enforce_role_granted : ∃ e : Enforcer MemoryStore,
    Reachable NewRoleBased (fun _ c => c.KeepsRules) e ∧
      ∃ decision, (e.enforce {} [.str "ann", .str "data", .str "read"]).1 = .ok decision ∧
        decision.allowed = true := by
  let fresh : RoleManager := { rejectCycles := true }
  let granted := rbacModel.modify "p" "p" (·.insertAll [["admin", "data", "read"]])
  let model := granted.modify "g" "g" (·.insertAll [["ann", "admin"]])
  let held : RoleManager := { fresh with domains := oneLink noDomain "ann" "admin" }
  have hmade : ∀ e : Enforcer MemoryStore, e.NewRoleBased → e.Made := fun _ h => h.made
  have h0 : Reachable NewRoleBased (fun _ c => c.KeepsRules) (strict rbacModel [("g", fresh)]) :=
    .start ⟨rbacModel, {}, { autoSave := false, rejectCycles := true }, ofText_rbacText, rfl, rfl, rfl⟩
  have h1 : Reachable NewRoleBased (fun _ c => c.KeepsRules) (strict granted [("g", fresh)]) :=
    h0.strict_addRows hmade trivial (Or.inl rfl) rfl rfl (by decide) rfl
  have h2 : Reachable NewRoleBased (fun _ c => c.KeepsRules) (strict model [("g", held)]) :=
    h1.strict_addRows hmade trivial (Or.inr rfl) rfl rfl (by decide) rfl
  have hrole : RoleChain (model.rows "g" "g") 10 "ann" "admin" := by
    refine ⟨1, by omega, by omega, fun i => if i = 0 then "ann" else "admin", rfl, fun i hi => ?_, rfl⟩
    obtain rfl : i = 0 := by omega
    decide
  obtain ⟨decision, hdecision, hallowed⟩ := enforce_iff_granted h2 (by decide) "ann" "data" "read"
  exact ⟨_, h2, decision, hdecision, hallowed.2 ⟨"admin", by decide, Or.inr hrole⟩⟩

end Enforcer

end AccessControl
