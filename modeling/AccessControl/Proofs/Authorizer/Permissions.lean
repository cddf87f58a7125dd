import AccessControl.Authorizer.Roles
import AccessControl.Proofs.Enforcer.OtherSections
import AccessControl.Proofs.Enforcer.RoleBased
import AccessControl.Proofs.Roles.Inherited
/-!
# Listed permissions and decisions

In the model in which a subject may do what one of its roles may, the permissions of a user and its roles can
be listed.  The list and a decision go over the same links, but not equally far: a decision follows links up
to the level of the manager, the list as long as there are new roles.  And an empty name stands for all
subjects in the list, but for itself in a decision.  Up to that, what is listed is what is allowed.

    the rows of the user and of all its roles are listed               (`mem_implicitPermissions`)
    a row that is listed, of a subject within the level, allows        (`allowed_iff_listed`)
    roles beyond the level, empty names, names that match others       (`not_always_audited`)
-/

namespace AccessControl

namespace Authorizer

variable {α : Type} [Authorizer α]

/-- A row is a permission of its subject; an empty name stands for all subjects. -/
theorem mem_permissions (a : α) (name subject : String) (rest : List String) :
    subject :: rest ∈ permissions a name none ↔
      subject :: rest ∈ rows a "p" "p" ∧ (name = "" ∨ subject = name) := by
  show subject :: rest ∈ (rows a "p" "p").filter (rowMatches 0 [name]) ↔ _
  rw [List.mem_filter]
  simp [rowMatches]

theorem implicitRoles_eq {a : α} {m : RoleManager} (hm : (managers a).find "g" = some m) (user : String)
    (domain : Option String) : implicitRoles a user domain = .ok (m.inherited user domain) := by
  unfold implicitRoles manager
  rw [hm]
  rfl

/-- The permissions of a user are the rows of the user and of all its roles, and all rows if one of these
names is empty. -/
theorem mem_implicitPermissions {a : α} {m : RoleManager} (hm : (managers a).find "g" = some m)
    (user : String) : ∃ listed, implicitPermissions a user none = .ok listed ∧
      ∀ subject rest, subject :: rest ∈ listed ↔ subject :: rest ∈ rows a "p" "p" ∧
        ∃ name ∈ user :: m.inherited user none, name = "" ∨ subject = name := by
  unfold implicitPermissions
  rw [implicitRoles_eq hm]
  refine ⟨_, rfl, fun subject rest => ?_⟩
  simp only [List.mem_flatMap, mem_permissions]
  constructor
  · rintro ⟨name, hname, hrow, hstands⟩
    exact ⟨hrow, name, hname, hstands⟩
  · rintro ⟨hrow, name, hname, hstands⟩
    exact ⟨name, hname, hrow, hstands⟩

/-- Where no name is empty, only its own rows are those of a name. -/
theorem mem_of_stands {names : List String} (hnames : "" ∉ names) {subject : String}
    (h : ∃ name ∈ names, name = "" ∨ subject = name) : subject ∈ names := by
  obtain ⟨name, hname, rfl | rfl⟩ := h
  · exact absurd hname hnames
  · exact hname

end Authorizer

namespace Enforcer

variable {σ : Type} [PolicyStore σ]

/-- Whether the permissions listed for a user say exactly what it is allowed. -/
def Audited (e : Enforcer σ) (user object action : String) : Prop :=
  ∃ decision listed, (e.enforce {} [.str user, .str object, .str action]).1 = .ok decision ∧
    Authorizer.implicitPermissions e user none = .ok listed ∧
      (decision.allowed = true ↔ ∃ subject, [subject, object, action] ∈ listed)

/-- A request and the permissions of its user, in terms of the rows and the links. -/
theorem Valid.audit {e : Enforcer σ} (he : e.Valid) (hon : e.config.enabled = true)
    (heffector : e.effector = .standard) (hmodel : e.model.bare = rbacModel.bare) {m : RoleManager}
    (hm : e.managers.find "g" = some m) (hrows : e.model.rows "p" "p" ≠ [])
    (user object action : String) :
    ∃ decision listed, (e.enforce {} [.str user, .str object, .str action]).1 = .ok decision ∧
      Authorizer.implicitPermissions e user none = .ok listed ∧
      (decision.allowed = true ↔ ∃ subject, [subject, object, action] ∈ e.model.rows "p" "p" ∧
        m.hasLink user subject none = true) ∧
      ∀ subject, [subject, object, action] ∈ listed ↔
        [subject, object, action] ∈ e.model.rows "p" "p" ∧
          ∃ name ∈ user :: m.inherited user none, name = "" ∨ subject = name := by
  obtain ⟨decision, hdecision, hallowed⟩ :=
    he.enforce_rbac hon heffector hmodel hm hrows user object action
  obtain ⟨listed, hlisted, hmem⟩ := Authorizer.mem_implicitPermissions (a := e) hm user
  exact ⟨decision, listed, hdecision, hlisted, hallowed, fun subject => hmem subject [object, action]⟩

/-! ## Roles of roles -/

/-- A role of a role, and a role without a name. -/
def ladderRoles : List Row := [["ann", "staff"], ["staff", "admin"], ["guest", ""]]

/-- A manager of these roles whose queries follow one link. -/
def ladderManager : RoleManager where
  maxLevel := 1
  domains := [(noDomain,
    ((({} : LinkGraph).link "ann" "staff").link "staff" "admin").link "guest" "")]

/-- An enforcer with these roles, one of which is granted something. -/
def ladder : Enforcer MemoryStore where
  model := (rbacModel.modify "p" "p" (·.insertAll [["admin", "data", "read"]])).modify "g" "g"
    (·.insertAll ladderRoles)
  store := {}
  managers := [("g", ladderManager)]
  config := { autoSave := false, maxLevel := 1 }

set_option maxRecDepth 20000 in
theorem reachable_ladder : Reachable NewRoleBased (fun _ c => c.KeepsRules) ladder := by
  let config : EnforcerConfig := { autoSave := false, maxLevel := 1 }
  let start : Enforcer MemoryStore :=
    { model := rbacModel, store := {}, managers := [("g", { maxLevel := 1 })], config }
  let granted : Enforcer MemoryStore :=
    { start with model := rbacModel.modify "p" "p" (·.insertAll [["admin", "data", "read"]]) }
  have h0 : Reachable NewRoleBased (fun _ c => c.KeepsRules) start :=
    .start ⟨rbacModel, {}, config, ofText_rbacText, rfl, rfl, rfl⟩
  have hgranted : (start.perform (.addRows "p" "p" [["admin", "data", "read"]])).2 = granted :=
    perform_addRows (h0.valid fun _ h => h.made) (Or.inl rfl) rfl rfl (persist_unsaved rfl _)
      (by decide) rfl
  have h1 : Reachable NewRoleBased (fun _ c => c.KeepsRules) granted :=
    hgranted ▸ h0.step (.addRows "p" "p" [["admin", "data", "read"]]) trivial
  have hfollow : granted.followRows "g" "g" .add ladderRoles =
      (.ok (), { granted with managers := ladder.managers }) := rfl
  have hlinked := perform_addRows (h1.valid fun _ h => h.made) (Or.inr rfl) rfl hfollow
    (persist_unsaved rfl _) (by decide) rfl
  have h2 := h1.step (.addRows "g" "g" ladderRoles) trivial
  rw [hlinked] at h2
  exact h2

/-- The enforcer after a call that lets a name match another. -/
def aliased : Enforcer MemoryStore :=
  (ladder.perform (.setNameMatch "g" fun name stored => name == "adam" && stored == "admin")).2

set_option maxRecDepth 20000 in
theorem rows_ladder : ladder.model.rows "p" "p" = [["admin", "data", "read"]] := by decide

/-- Over one row, whether the list agrees with decisions is a matter of the links. -/
theorem Valid.audited_iff {e : Enforcer MemoryStore} (he : e.Valid) (hon : e.config.enabled = true)
    (heffector : e.effector = .standard) (hmodel : e.model = ladder.model) {m : RoleManager}
    (hm : e.managers.find "g" = some m) (user : String) :
    e.Audited user "data" "read" ↔
      (m.hasLink user "admin" none = true ↔
        ∃ name ∈ user :: m.inherited user none, name = "" ∨ "admin" = name) := by
  have hrows : e.model.rows "p" "p" = [["admin", "data", "read"]] := hmodel ▸ rows_ladder
  have hbare : e.model.bare = rbacModel.bare := hmodel ▸ reachable_ladder.roleBased.model
  obtain ⟨decision, listed, hdecision, hlisted, hallowed, hmem⟩ :=
    he.audit hon heffector hbare hm (by simp [hrows]) user "data" "read"
  simp only [hrows, List.mem_singleton, List.cons.injEq, and_true] at hallowed hmem
  constructor
  · rintro ⟨decision', listed', hdecision', hlisted', hiff⟩
    obtain rfl := Except.ok.inj (hdecision.symm.trans hdecision')
    obtain rfl := Except.ok.inj (hlisted.symm.trans hlisted')
    simpa [hallowed, hmem] using hiff
  · intro hiff
    refine ⟨decision, listed, hdecision, hlisted, ?_⟩
    simpa [hallowed, hmem] using hiff

/-! ## Top theorem (proved from the lemmas above) -/

/-- **Listed permissions are what is allowed.**  In every state that any calls lead to, over the definitions
of the text, with policy rows, enforcement on and the rule of the effect kind: a request is decided, and the
permissions of its user are listed, with those of all names that one or more links lead to.  If a row is
listed whose subject is the user, or a role that no more links lead to than the level of the manager, its
request is allowed.  Where names are taken as they are, every allowed request has such a row; so when neither
the user nor a role of it is the empty name, and no role is beyond the level, exactly what is listed is
allowed. -/
theorem allowed_iff_listed {e : Enforcer σ} (h : Reachable Made (fun _ _ => True) e)
    (hon : e.config.enabled = true) (heffector : e.effector = .standard)
    (hmodel : e.model.bare = rbacModel.bare) (hrows : e.model.rows "p" "p" ≠ [])
    (user object action : String) :
    ∃ m decision roles listed, e.managers.find "g" = some m ∧
      (e.enforce {} [.str user, .str object, .str action]).1 = .ok decision ∧
      Authorizer.implicitRoles e user none = .ok roles ∧
      Authorizer.implicitPermissions e user none = .ok listed ∧
      (∀ role, role ∈ roles ↔ role ≠ user ∧ Relation.TransGen (m.DirectRole none) user role) ∧
      (∀ subject, [subject, object, action] ∈ listed → m.Within none user subject →
        decision.allowed = true) ∧
      (m.nameMatch = none → decision.allowed = true →
        ∃ subject, [subject, object, action] ∈ listed ∧ m.Within none user subject) ∧
      (m.nameMatch = none → user ≠ "" → "" ∉ roles → (∀ role ∈ roles, m.Within none user role) →
        (decision.allowed = true ↔ ∃ subject, [subject, object, action] ∈ listed)) := by
  have hvalid := h.valid fun _ h => h
  obtain ⟨d, hd, -⟩ := Model.find?_rbac hmodel "g" "g" rfl
  obtain ⟨m, hm⟩ := Table.exists_find ((h.managed fun _ h => h).mem_keys hvalid.model.toNamed hd)
  have hwell := (hvalid.managers "g" m hm).toWellFormed
  obtain ⟨decision, listed, hdecision, hlisted, hallowed, hmem⟩ :=
    hvalid.audit hon heffector hmodel hm hrows user object action
  -- what is listed and within the level is allowed, and the other way round
  have hsound : ∀ subject, [subject, object, action] ∈ listed → m.Within none user subject →
      decision.allowed = true := fun subject hsubject hwithin =>
    hallowed.2 ⟨subject, ((hmem _).1 hsubject).1, hwell.hasLink_of_within hwithin⟩
  have hcomplete : m.nameMatch = none → decision.allowed = true →
      ∃ subject, [subject, object, action] ∈ listed ∧ m.Within none user subject := by
    intro hplain hyes
    obtain ⟨subject, hrow, hlink⟩ := hallowed.1 hyes
    have hwithin := (hwell.hasLink_iff_within hplain user subject).1 hlink
    have hname := hwell.mem_inherited_of_within hplain hwithin
    exact ⟨subject, (hmem _).2 ⟨hrow, subject, List.mem_cons.2 hname, Or.inr rfl⟩, hwithin⟩
  refine ⟨m, decision, m.inherited user none, listed, hm, hdecision, Authorizer.implicitRoles_eq hm _ _,
    hlisted, hwell.mem_inherited user, hsound, hcomplete, fun hplain huser hroles hnear => ?_⟩
  constructor
  · intro hyes
    obtain ⟨subject, hsubject, -⟩ := hcomplete hplain hyes
    exact ⟨subject, hsubject⟩
  · rintro ⟨subject, hsubject⟩
    have hnames : "" ∉ user :: m.inherited user none := by simp [huser.symm, hroles]
    refine hsound subject hsubject ?_
    rcases List.mem_cons.1 (Authorizer.mem_of_stands hnames ((hmem _).1 hsubject).2) with heq | hrole
    · exact Or.inl heq
    · exact hnear subject hrole

set_option maxRecDepth 20000 in
/-- What the role of a user is granted is listed and allowed. -/
theorem allowed_iff_listed_staff : ∃ decision listed,
    (ladder.enforce {} [.str "staff", .str "data", .str "read"]).1 = .ok decision ∧
      Authorizer.implicitPermissions ladder "staff" none = .ok listed ∧
      decision.allowed = true ∧ ∃ subject, [subject, "data", "read"] ∈ listed := by
  have hmade : Reachable Made (fun _ _ => True) ladder :=
    (reachable_ladder.mono fun _ h => h.made).mono_calls fun _ _ _ => trivial
  have hrole : Authorizer.implicitRoles ladder "staff" none = .ok ["admin"] := rfl
  have hlist : Authorizer.implicitPermissions ladder "staff" none = .ok [["admin", "data", "read"]] := by
    rfl
  have hwell := ((hmade.valid fun _ h => h).managers "g" ladderManager rfl).toWellFormed
  obtain ⟨m, decision, roles, listed, hm, hdecision, hroles, hlisted, -, -, -, hiff⟩ :=
    allowed_iff_listed hmade rfl rfl reachable_ladder.roleBased.model (by decide) "staff" "data" "read"
  obtain rfl : ladderManager = m := Option.some.inj hm
  obtain rfl := Except.ok.inj (hrole.symm.trans hroles)
  obtain rfl := Except.ok.inj (hlist.symm.trans hlisted)
  have hnear : ∀ role ∈ ["admin"], ladderManager.Within none "staff" role := by
    intro role hmem
    rw [List.mem_singleton.1 hmem]
    exact (hwell.hasLink_iff_within rfl "staff" "admin").1 (by decide)
  have hthere : ∃ subject, [subject, "data", "read"] ∈ [["admin", "data", "read"]] :=
    ⟨"admin", List.mem_singleton.2 rfl⟩
  exact ⟨decision, _, hdecision, hlist, (hiff rfl (by decide) (by decide) hnear).2 hthere, hthere⟩

set_option maxRecDepth 20000 in
/-- Roles beyond the level are listed but not allowed, and so is everything for a user without a name or with
a role without one; what a name that matches another allows is not listed. -/
theorem not_always_audited :
    (¬ ∀ (e : Enforcer MemoryStore) (user object action : String),
      Reachable NewRoleBased (fun _ c => c.KeepsRules) e → e.model.rows "p" "p" ≠ [] →
        e.Audited user object action) ∧
    (∀ user ∈ ["ann", "", "guest"], ¬ ladder.Audited user "data" "read") ∧
    ¬ aliased.Audited "adam" "data" "read" := by
  have hvalid := reachable_ladder.valid fun _ h => h.made
  have haliased : aliased.Valid := valid_perform hvalid _
  have hladder : ∀ user ∈ ["ann", "", "guest"], ¬ ladder.Audited user "data" "read" := by
    intro user huser
    rw [hvalid.audited_iff rfl rfl rfl rfl]
    revert huser user
    decide
  refine ⟨fun hall => ?_, hladder, ?_⟩
  · exact hladder "ann" (by decide) (hall ladder "ann" "data" "read" reachable_ladder (by decide))
  · rw [haliased.audited_iff rfl rfl rfl rfl]
    decide

end Enforcer

end AccessControl
