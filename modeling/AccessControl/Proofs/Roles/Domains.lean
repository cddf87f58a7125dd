import AccessControl.Proofs.Roles.Managers
/-!
# Domains are apart

What is asked in one domain does not depend on the links of another: two histories of one manager that
differ only by links added and dropped in one domain answer alike in every other, as long as each domain
that is asked for means itself alone.  The links without a domain are kept under a key of their own, and a
domain with the name of that key is the same place.

    domainKey d = domainKey d' ↔ d = d', or one is none and the other is named `noDomain`
                                                                         (`domainKey_eq_iff`)
    m.AgreesAt k key → (m.apply operation).AgreesAt (k.apply operation) key
                                                                         (`AgreesAt.apply`)
    operation.Under d → domainKey d ≠ key → m.AgreesAt (m.apply operation) key
                                                                         (`agreesAt_apply`)
    (m.run operations).AgreesAt (m.run (outside d operations)) key       (`agreesAt_run_outside`)
-/

namespace AccessControl

namespace RoleManager

/-! ## Keys -/

/-- Two domains have one key when they are the same, or when one is none and the other has the name of the
key that is kept for none. -/
theorem domainKey_eq_iff (d₁ d₂ : Option String) : domainKey d₁ = domainKey d₂ ↔
    d₁ = d₂ ∨ (d₁ = none ∧ d₂ = some noDomain) ∨ (d₁ = some noDomain ∧ d₂ = none) := by
  cases d₁ <;> cases d₂ <;> simp [domainKey, eq_comm]

/-! ## Managers that agree in a domain -/

/-- Two managers with the same settings and the same links under a key, in the same order. -/
structure AgreesAt (m k : RoleManager) (key : String) : Prop where
  settings : k.clear = m.clear
  links : k.domains.find key = m.domains.find key

theorem AgreesAt.refl (m : RoleManager) (key : String) : m.AgreesAt m key := ⟨rfl, rfl⟩

theorem AgreesAt.symm {m k : RoleManager} {key : String} (h : m.AgreesAt k key) : k.AgreesAt m key :=
  ⟨h.settings.symm, h.links.symm⟩

theorem AgreesAt.trans {m k l : RoleManager} {key : String} (h : m.AgreesAt k key)
    (h' : k.AgreesAt l key) : m.AgreesAt l key :=
  ⟨h'.settings.trans h.settings, h'.links.trans h.links⟩

theorem AgreesAt.nameMatch {m k : RoleManager} {key : String} (h : m.AgreesAt k key) :
    k.nameMatch = m.nameMatch :=
  (congrArg RoleManager.nameMatch h.settings :)

theorem AgreesAt.domainMatch {m k : RoleManager} {key : String} (h : m.AgreesAt k key) :
    k.domainMatch = m.domainMatch :=
  (congrArg RoleManager.domainMatch h.settings :)

theorem AgreesAt.maxLevel {m k : RoleManager} {key : String} (h : m.AgreesAt k key) :
    k.maxLevel = m.maxLevel :=
  (congrArg RoleManager.maxLevel h.settings :)

theorem AgreesAt.rejectCycles {m k : RoleManager} {key : String} (h : m.AgreesAt k key) :
    k.rejectCycles = m.rejectCycles :=
  (congrArg RoleManager.rejectCycles h.settings :)

/-! ## One operation -/

theorem clear_insertLink (m : RoleManager) (name role : String) (domain : Option String) :
    (m.insertLink name role domain).2.clear = m.clear := by
  rcases h : m.insertLink name role domain with ⟨_ | _, k⟩
  · rw [insertLink_error h]
  · rw [eq_withLink_of_insertLink h]
    exact clear_withLink m name role domain

/-- The answer of a link added in a domain depends on the links of that domain only. -/
theorem AgreesAt.insertLink_answer {m k : RoleManager} {domain : Option String}
    (h : m.AgreesAt k (domainKey domain)) (name role : String) :
    (k.insertLink name role domain).1 = (m.insertLink name role domain).1 := by
  simp only [insertLink, h.links, h.rejectCycles]
  split
  · rfl
  · split
    · rfl
    · split <;> rfl

/-- What a domain holds after a link was added to it or to another. -/
theorem find_insertLink (m : RoleManager) (name role : String) (domain : Option String) (key : String) :
    (m.insertLink name role domain).2.domains.find key =
      if domainKey domain = key ∧ (m.insertLink name role domain).1 = .ok () then
        some ((m.graphAt key).link name role)
      else m.domains.find key := by
  rcases h : m.insertLink name role domain with ⟨_ | _, k⟩
  · rw [insertLink_error h, if_neg (by simp)]
  · rw [eq_withLink_of_insertLink h, withLink]
    by_cases hkey : domainKey domain = key
    · subst hkey
      rw [Table.find_put_self, if_pos ⟨rfl, rfl⟩]
    · rw [Table.find_put_of_ne _ _ hkey, if_neg fun hand => hkey hand.1]

/-- What is done to two managers that agree in a domain leaves them agreeing there. -/
theorem AgreesAt.apply {m k : RoleManager} {key : String} (h : m.AgreesAt k key)
    (operation : Operation) : (m.apply operation).AgreesAt (k.apply operation) key := by
  cases operation with
  | addLink name role domain =>
    constructor
    · show (k.insertLink name role domain).2.clear = (m.insertLink name role domain).2.clear
      rw [clear_insertLink, clear_insertLink, h.settings]
    · show (k.insertLink name role domain).2.domains.find key =
        (m.insertLink name role domain).2.domains.find key
      rw [find_insertLink, find_insertLink]
      by_cases hkey : domainKey domain = key
      · subst hkey
        rw [h.insertLink_answer, graphAt, graphAt, h.links]
      · rw [if_neg fun hand => hkey hand.1, if_neg fun hand => hkey hand.1, h.links]
  | deleteLink name role domain =>
    constructor
    · exact h.settings
    · show (k.domains.update _ _).find key = (m.domains.update _ _).find key
      rw [Table.find_update, Table.find_update, h.links]
  | clear => exact ⟨h.settings, rfl⟩
  | setNameMatch f => exact ⟨congrArg (fun n : RoleManager => { n with nameMatch := f }) h.settings, h.links⟩
  | setDomainMatch f =>
    exact ⟨congrArg (fun n : RoleManager => { n with domainMatch := f }) h.settings, h.links⟩
  | setMaxLevel level =>
    exact ⟨congrArg (fun n : RoleManager => { n with maxLevel := level }) h.settings, h.links⟩
  | rejectCycles on =>
    exact ⟨congrArg (fun n : RoleManager => { n with rejectCycles := on }) h.settings, h.links⟩

/-- The operations that add or drop a link in a domain. -/
inductive Operation.Under (domain : Option String) : Operation → Prop where
  | addLink (name role : String) : Under domain (.addLink name role domain)
  | deleteLink (name role : String) : Under domain (.deleteLink name role domain)

instance (domain : Option String) : DecidablePred (Operation.Under domain)
  | .addLink name role d =>
    if h : d = domain then isTrue (h ▸ .addLink name role) else isFalse fun hu => by cases hu; exact h rfl
  | .deleteLink name role d =>
    if h : d = domain then isTrue (h ▸ .deleteLink name role) else isFalse fun hu => by cases hu; exact h rfl
  | .clear | .setNameMatch _ | .setDomainMatch _ | .setMaxLevel _ | .rejectCycles _ => isFalse nofun

/-- A link added or dropped in one domain leaves the others. -/
theorem agreesAt_apply (m : RoleManager) {operation : Operation} {domain : Option String} {key : String}
    (hunder : operation.Under domain) (hkey : domainKey domain ≠ key) :
    m.AgreesAt (m.apply operation) key := by
  cases hunder with
  | addLink name role =>
    constructor
    · exact clear_insertLink m name role domain
    · show (m.insertLink name role domain).2.domains.find key = m.domains.find key
      rw [find_insertLink, if_neg fun hand => hkey hand.1]
  | deleteLink name role =>
    constructor
    · rfl
    · exact Table.find_update_of_ne _ _ hkey

/-! ## Many operations -/

/-- The operations that do not add or drop a link in a domain. -/
def outside (domain : Option String) (operations : List Operation) : List Operation :=
  operations.filter fun operation => ¬ operation.Under domain

/-- What was done in one domain can be left out of the history of every other. -/
theorem AgreesAt.run_outside {m k : RoleManager} {key : String} {domain : Option String}
    (h : m.AgreesAt k key) (hkey : domainKey domain ≠ key) (operations : List Operation) :
    (m.run operations).AgreesAt (k.run (outside domain operations)) key := by
  induction operations generalizing m k with
  | nil => exact h
  | cons operation rest ih =>
    by_cases hunder : operation.Under domain
    · have hrest : outside domain (operation :: rest) = outside domain rest :=
        List.filter_cons_of_neg (by simpa using hunder)
      rw [hrest]
      exact ih ((agreesAt_apply m hunder hkey).symm.trans h)
    · have hrest : outside domain (operation :: rest) = operation :: outside domain rest :=
        List.filter_cons_of_pos (by simpa using hunder)
      rw [hrest]
      exact ih (h.apply operation)

/-! ## Queries -/

theorem namesMatch_congr {m k : RoleManager} (h : k.nameMatch = m.nameMatch) (name : String) :
    k.namesMatch name = m.namesMatch name := by
  funext stored
  rw [namesMatch, namesMatch, h]

theorem rolesFrom_congr {m k : RoleManager} (h : k.nameMatch = m.nameMatch) (graphs : List LinkGraph) :
    k.rolesFrom graphs = m.rolesFrom graphs := by
  funext name
  rw [rolesFrom, rolesFrom, h]

/-- A search over graphs depends on nothing of the manager but how names are compared. -/
theorem reaches_congr {m k : RoleManager} (h : k.nameMatch = m.nameMatch) (graphs : List LinkGraph)
    (role : String) (level : Nat) (frontier seen : List String) :
    k.reaches graphs role level frontier seen = m.reaches graphs role level frontier seen := by
  induction level generalizing frontier seen with
  | zero => rfl
  | succ level ih =>
    unfold reaches
    rw [rolesFrom_congr h, namesMatch_congr h]
    simp only [ih]

/-- A query sees the graph under the key of its domain when domains are compared by name. -/
theorem visible_eq {m : RoleManager} (h : m.domainMatch = none) (domain : Option String) :
    m.visible domain = (m.domains.find (domainKey domain)).toList := by
  unfold visible
  rw [h]
  cases domain <;> rfl

section Queries

variable {m k : RoleManager} {domain : Option String} (h : m.AgreesAt k (domainKey domain))
  (hnone : m.domainMatch = none)

include h hnone

theorem AgreesAt.visible : k.visible domain = m.visible domain := by
  rw [visible_eq hnone, visible_eq (h.domainMatch.trans hnone), h.links]

theorem AgreesAt.hasLink (name role : String) :
    k.hasLink name role domain = m.hasLink name role domain := by
  unfold RoleManager.hasLink
  rw [h.visible hnone, h.maxLevel, reaches_congr h.nameMatch, namesMatch_congr h.nameMatch]

theorem AgreesAt.roles (name : String) : k.roles name domain = m.roles name domain := by
  unfold RoleManager.roles
  rw [h.visible hnone, rolesFrom_congr h.nameMatch]

theorem AgreesAt.users (name : String) : k.users name domain = m.users name domain := by
  unfold RoleManager.users usersFrom
  rw [h.visible hnone, h.nameMatch]

end Queries

/-! ## Top theorem (proved from the lemmas above) -/

/-- **Domains are apart.**  Take any history of a manager, and put any additions and removals of links in
one domain anywhere into it.  If domains are compared by name when it is over, then no query in a different
domain, none being one, can tell: not whether a name has a role, not which roles or users a name has, nor
their order.  Two domains are different here unless one is none and the other is named like the key of the
links without a domain. -/
theorem queries_other_domain (start : RoleManager) (before later : List Operation)
    {changes : List Operation} {d₁ d₂ : Option String} (hchanges : ∀ c ∈ changes, c.Under d₁)
    (hne : d₁ ≠ d₂) (hnone : ¬ (d₁ = none ∧ d₂ = some noDomain))
    (hnamed : ¬ (d₁ = some noDomain ∧ d₂ = none))
    (hmatch : (start.run (before ++ later)).domainMatch = none) (name role : String) :
    let m := start.run (before ++ later)
    let k := start.run (before ++ changes ++ later)
    k.hasLink name role d₂ = m.hasLink name role d₂ ∧ k.roles name d₂ = m.roles name d₂ ∧
      k.users name d₂ = m.users name d₂ := by
  intro m k
  have hkey : domainKey d₁ ≠ domainKey d₂ := by
    intro hkeys
    rcases (domainKey_eq_iff d₁ d₂).1 hkeys with heq | hbad | hbad
    · exact hne heq
    · exact hnone hbad
    · exact hnamed hbad
  -- both histories come down to the one without what was done under `d₁`
  have hsame : outside d₁ (before ++ changes ++ later) = outside d₁ (before ++ later) := by
    have hgone : outside d₁ changes = [] := by
      rw [outside, List.filter_eq_nil_iff]
      intro c hc
      simpa using hchanges c hc
    unfold outside at hgone ⊢
    rw [List.filter_append, List.filter_append, List.filter_append, hgone, List.append_nil]
  have hm := (AgreesAt.refl start (domainKey d₂)).run_outside hkey (before ++ later)
  have hk := (AgreesAt.refl start (domainKey d₂)).run_outside hkey (before ++ changes ++ later)
  rw [hsame] at hk
  have hagrees : m.AgreesAt k (domainKey d₂) := hm.trans hk.symm
  exact ⟨hagrees.hasLink hmatch name role, hagrees.roles hmatch name, hagrees.users hmatch name⟩

/-- A role of `alice` in a named domain, dropped and given again, shows nowhere among the links without a
domain, where she has another role. -/
theorem queries_none_named :
    let before := [Operation.addLink "alice" "admin" none]
    let changes := [Operation.addLink "alice" "owner" "d", .deleteLink "alice" "owner" "d",
      .addLink "bob" "admin" "d"]
    let later := [Operation.rejectCycles true, .addLink "carol" "admin" none]
    let m := run {} (before ++ later)
    let k := run {} (before ++ changes ++ later)
    (k.hasLink "alice" "owner" none = m.hasLink "alice" "owner" none ∧
      k.roles "alice" none = m.roles "alice" none ∧ k.users "alice" none = m.users "alice" none) ∧
        k.roles "alice" none = ["admin"] := by
  intro before changes later m k
  have hchanges : ∀ c ∈ changes, c.Under "d" := by
    intro c hc
    simp only [changes, List.mem_cons, List.not_mem_nil, or_false] at hc
    rcases hc with rfl | rfl | rfl
    · exact .addLink _ _
    · exact .deleteLink _ _
    · exact .addLink _ _
  exact ⟨queries_other_domain {} before later hchanges (by simp) (by simp) (by decide) rfl _ _, by decide⟩

/-- Not every two domains that differ are apart: a role given in a domain with the name of the key kept for
links without one is a role without a domain. -/
theorem not_always_apart : ¬ ∀ (start : RoleManager) (operations : List Operation) (change : Operation)
    (d₁ d₂ : Option String), change.Under d₁ → d₁ ≠ d₂ → start.domainMatch = none →
      (start.run operations).domainMatch = none → ∀ name role,
        ((start.run operations).apply change).hasLink name role d₂ =
          (start.run operations).hasLink name role d₂ := by
  intro hall
  have hsame := hall {} [] (.addLink "alice" "admin" (some noDomain)) (some noDomain) none
    (.addLink _ _) (by simp) rfl rfl "alice" "admin"
  exact absurd hsame (by decide)

end RoleManager

end AccessControl
