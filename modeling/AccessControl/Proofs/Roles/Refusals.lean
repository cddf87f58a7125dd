import AccessControl.Proofs.Roles.Rows
/-!
# Links that are refused

A manager that refuses cycles tries a link and takes it back if it closes one.  Over any history no
domain ever has a cycle, so a link is refused exactly when its role already reaches its name; and what is
taken back is everything that the try had changed.

    m.Sound → operation is not "accept cycles" → (m.apply operation).Sound   (`Sound.apply`)
    m.Sound → m.Link key a b → m.insertLink a b domain = (.ok (), m)         (`Sound.insertLink_of_link`)
    refused ↔ a = b or b reaches a; a refusal leaves no trace                (`insertLink_strict_run`)
-/

namespace AccessControl

namespace RoleManager

/-! ## One operation -/

/-- A manager that refuses cycles stays sound, and goes on to refuse them. -/
theorem Sound.apply {m : RoleManager} (hm : m.Sound) (hon : m.rejectCycles = true)
    {operation : Operation} (hop : operation ≠ .rejectCycles false) :
    (m.apply operation).Sound ∧ (m.apply operation).rejectCycles = true := by
  cases operation with
  | addLink name role domain =>
    rw [RoleManager.apply]
    rcases hm.insertLink_cases hm.acyclic name role domain with ⟨hok, ha⟩ | ⟨⟨err, k, herr⟩, -⟩
    · rw [hok]
      exact ⟨⟨hm.withLink name role domain, ha⟩, hon⟩
    · rw [herr, insertLink_error herr]
      exact ⟨hm, hon⟩
  | deleteLink name role domain =>
    refine ⟨⟨hm.deleteLink name role domain, fun hr => ?_⟩, hon⟩
    refine (hm.acyclic hr).mono fun key x y hl => ?_
    exact ((hm.link_deleteLink name role domain key x y).1 hl).1
  | clear => exact ⟨m.sound_clear, hon⟩
  | setNameMatch | setDomainMatch | setMaxLevel =>
    exact ⟨⟨⟨hm.distinct, hm.graphs⟩, hm.acyclic⟩, hon⟩
  | rejectCycles on =>
    cases on with
    | true => exact ⟨⟨⟨hm.distinct, hm.graphs⟩, fun _ => hm.acyclic hon⟩, rfl⟩
    | false => exact absurd rfl hop

theorem Sound.run {m : RoleManager} (hm : m.Sound) (hon : m.rejectCycles = true)
    {operations : List Operation} (hops : ∀ operation ∈ operations, operation ≠ .rejectCycles false) :
    (m.run operations).Sound ∧ (m.run operations).rejectCycles = true := by
  induction operations generalizing m with
  | nil => exact ⟨hm, hon⟩
  | cons operation rest ih =>
    rw [List.forall_mem_cons] at hops
    obtain ⟨hsound, hstays⟩ := hm.apply hon hops.1
    exact ih hsound hstays hops.2

/-! ## One link -/

/-- A link is refused when it is one of a name to itself, or its role reaches its name already. -/
theorem Sound.insertLink_error_iff {m : RoleManager} (hm : m.Sound) (hon : m.rejectCycles = true)
    (name role : String) (domain : Option String) :
    (∃ err, (m.insertLink name role domain).1 = .error err) ↔
      name = role ∨ Relation.TransGen (m.Link (domainKey domain)) role name := by
  have hacyclic := hm.acyclic hon
  have hcycle : ¬ (m.withLink name role domain).Acyclic ↔
      name = role ∨ Relation.TransGen (m.Link (domainKey domain)) role name := by
    rw [hacyclic.withLink_iff, (hacyclic (domainKey domain)).link_iff, not_not,
      Relation.reflTransGen_iff_eq_or_transGen]
    rfl
  rw [← hcycle]
  rcases hm.insertLink_cases hm.acyclic name role domain with ⟨hok, ha⟩ | ⟨⟨err, k, herr⟩, -, ha⟩
  · simp [hok, ha hon]
  · simp [herr, ha]

/-- A link that is held changes nothing when it is added again. -/
theorem WellFormed.withLink_of_link {m : RoleManager} (hm : m.WellFormed) {name role : String}
    {domain : Option String} (h : m.Link (domainKey domain) name role) :
    m.withLink name role domain = m := by
  have hgraph := (hm.graphs (domainKey domain)).link_of_edge h
  have hfound : m.domains.find (domainKey domain) = some (m.graphAt (domainKey domain)) := by
    cases hfind : m.domains.find (domainKey domain) with
    | none => simp [Link, graphAt, hfind] at h
    | some g => simp [graphAt, hfind]
  rw [RoleManager.withLink, hgraph, Table.put_of_find hfound]

theorem Sound.insertLink_of_link {m : RoleManager} (hm : m.Sound) {name role : String}
    {domain : Option String} (h : m.Link (domainKey domain) name role) :
    m.insertLink name role domain = (.ok (), m) := by
  have hsame := hm.withLink_of_link h
  rcases hm.insertLink_cases hm.acyclic name role domain with ⟨hok, -⟩ | ⟨-, hon, hcycle⟩
  · rw [hok, hsame]
  · rw [hsame] at hcycle
    exact absurd (hm.acyclic hon) hcycle

/-! ## Top theorem (proved from the lemmas above) -/

/-- **Refused links.**  A manager that refuses cycles from the start, after any operations that leave it
so, has no cycle in any domain.  A link is refused exactly when its names are the same or its role reaches
its name over the links of the domain, and then the manager is what it was; a link that is accepted is the
only one that is new; and a link that is held changes nothing. -/
theorem insertLink_strict_run {start : RoleManager} (hempty : start.domains = [])
    (hon : start.rejectCycles = true) {operations : List Operation}
    (hops : ∀ operation ∈ operations, operation ≠ .rejectCycles false) :
    let m := start.run operations
    m.Acyclic ∧ ∀ name role domain,
      ((∃ err, (m.insertLink name role domain).1 = .error err) ↔
        name = role ∨ Relation.TransGen (m.Link (domainKey domain)) role name) ∧
      (∀ err, (m.insertLink name role domain).1 = .error err →
        (m.insertLink name role domain).2 = m) ∧
      ((m.insertLink name role domain).1 = .ok () → ∀ key x y,
        (m.insertLink name role domain).2.Link key x y ↔
          m.Link key x y ∨ (key = domainKey domain ∧ x = name ∧ y = role)) ∧
      (m.Link (domainKey domain) name role → m.insertLink name role domain = (.ok (), m)) := by
  intro m
  have hstart : start.Sound := by
    have hclear : start = start.clear := by rw [clear, ← hempty]
    rw [hclear]
    exact start.sound_clear
  obtain ⟨hm, hstays⟩ := hstart.run hon hops
  refine ⟨hm.acyclic hstays, fun name role domain => ⟨hm.insertLink_error_iff hstays name role domain,
    fun err herr => insertLink_error (Prod.ext herr rfl), fun hok key x y => ?_,
    hm.insertLink_of_link⟩⟩
  have hadded : (m.insertLink name role domain).2 = m.withLink name role domain :=
    eq_withLink_of_insertLink (Prod.ext hok rfl)
  rw [hadded, link_withLink]

/-- `a` inherits `b` and `b` inherits `c` in a domain: the link back is refused there without a trace, and
accepted in another domain. -/
theorem insertLink_strict_chain :
    let m := run { rejectCycles := true }
      [.addLink "b" "c" "d", .addLink "a" "c" "d", .deleteLink "a" "c" "d", .addLink "a" "b" "d"]
    (∃ err, m.insertLink "c" "a" "d" = (.error err, m)) ∧ m.insertLink "a" "b" "d" = (.ok (), m) ∧
      ∀ key x y, (m.insertLink "c" "a" none).2.Link key x y ↔
        m.Link key x y ∨ (key = noDomain ∧ x = "c" ∧ y = "a") := by
  intro m
  have hops : ∀ operation ∈ [Operation.addLink "b" "c" "d", .addLink "a" "c" "d",
      .deleteLink "a" "c" "d", .addLink "a" "b" "d"], operation ≠ .rejectCycles false := by
    simp
  have hempty : ({ rejectCycles := true } : RoleManager).domains = [] := rfl
  obtain ⟨-, hlinks⟩ := insertLink_strict_run hempty rfl hops
  have hab : m.Link "d" "a" "b" := by decide
  have hbc : m.Link "d" "b" "c" := by decide
  obtain ⟨hrefused, hsame, -, -⟩ := hlinks "c" "a" "d"
  obtain ⟨err, herr⟩ := hrefused.2 (Or.inr (.tail (.single hab) hbc))
  obtain ⟨-, -, hadded, -⟩ := hlinks "c" "a" none
  obtain ⟨-, -, -, hagain⟩ := hlinks "a" "b" "d"
  exact ⟨⟨err, Prod.ext herr (hsame err herr)⟩, hagain hab, hadded rfl⟩

end RoleManager

end AccessControl
