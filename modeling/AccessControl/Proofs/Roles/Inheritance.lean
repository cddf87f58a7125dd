import AccessControl.Proofs.Roles.Managers
/-!
# What a role query answers

A query in a domain sees the links under certain keys, and every name stands for the stored names it
matches.  `DirectRole` is one step over such a link.  A query holds exactly when the names match or a
chain of at least one and at most `maxLevel` steps leads to a match.

The search goes level by level and looks at no name twice.  What it keeps is that a name that was seen
is no match, and is either on the current level or has only seen roles; so what is left out is never
on a shortest chain.

    m.reaches graphs role level frontier seen ↔ a match is at most `level` steps from the frontier
                                                                       (`reaches_iff`)
    m.hasLink a b domain ↔ Names a b ∨ a chain of 1 … maxLevel steps   (`hasLink_iff`)
-/

namespace AccessControl

namespace RoleManager

/-- Whether a name asked for stands for a stored one. -/
def Names (m : RoleManager) (name stored : String) : Prop :=
  name = stored ∨ ∃ f, m.nameMatch = some f ∧ f name stored = true

/-- Whether a query in a domain sees the links under a key: those of the domain itself, or those of
every domain, besides the links without one, that is the same or matches. -/
def Sees (m : RoleManager) (domain : Option String) (key : String) : Prop :=
  match domain, m.domainMatch with
  | some d, some f => key ≠ noDomain ∧ (key = d ∨ f d key = true)
  | _, _ => key = domainKey domain

/-- Whether some stored name that a name stands for has a link to a role that the query sees. -/
def DirectRole (m : RoleManager) (domain : Option String) (name role : String) : Prop :=
  ∃ key, m.Sees domain key ∧ ∃ stored, m.Names name stored ∧ m.Link key stored role

/-- Whether a match of a role is a number of steps away from a name. -/
def RoleAway (m : RoleManager) (domain : Option String) (role : String) : Nat → String → Prop
  | 0, name => m.Names role name
  | k + 1, name => ∃ next, m.DirectRole domain name next ∧ m.RoleAway domain role k next

/-- The steps from a name, written out as a sequence of names. -/
theorem roleAway_iff (m : RoleManager) (domain : Option String) (role : String) (k : Nat)
    (name : String) :
    m.RoleAway domain role k name ↔ ∃ names : Nat → String, names 0 = name ∧
      (∀ i < k, m.DirectRole domain (names i) (names (i + 1))) ∧ m.Names role (names k) := by
  induction k generalizing name with
  | zero =>
    constructor
    · intro h
      exact ⟨fun _ => name, rfl, by omega, h⟩
    · rintro ⟨names, rfl, -, h⟩
      exact h
  | succ k ih =>
    constructor
    · rintro ⟨next, hstep, haway⟩
      obtain ⟨names, rfl, hsteps, hmatch⟩ := (ih next).1 haway
      refine ⟨fun i => if i = 0 then name else names (i - 1), by simp, fun i hi => ?_, by simpa⟩
      rcases Nat.eq_zero_or_pos i with rfl | hpos
      · simpa using hstep
      · have hprev := hsteps (i - 1) (by omega)
        rw [Nat.sub_add_cancel hpos] at hprev
        simpa [Nat.ne_of_gt hpos] using hprev
    · rintro ⟨names, rfl, hsteps, hmatch⟩
      exact ⟨names 1, hsteps 0 (by omega), (ih (names 1)).2
        ⟨fun i => names (i + 1), rfl, fun i hi => hsteps (i + 1) (by omega), hmatch⟩⟩

/-! ## What a query looks at -/

theorem namesMatch_iff (m : RoleManager) (name stored : String) :
    m.namesMatch name stored = true ↔ m.Names name stored := by
  cases h : m.nameMatch <;> simp [namesMatch, Names, h]

theorem mem_nodesMatching (g : LinkGraph) (m : RoleManager) (name stored : String) :
    stored ∈ g.nodesMatching m.nameMatch name ↔ stored ∈ g.nodes.keys ∧ m.Names name stored := by
  unfold LinkGraph.nodesMatching Names
  cases m.nameMatch with
  | none =>
    simp only [Table.contains_iff]
    split
    · next h =>
      simp only [List.mem_singleton]
      exact ⟨fun heq => ⟨heq ▸ h, Or.inl heq.symm⟩, by rintro ⟨-, rfl | ⟨f, hf, -⟩⟩ <;> simp_all⟩
    · next h =>
      simp only [List.not_mem_nil, false_iff]
      rintro ⟨hmem, rfl | ⟨f, hf, -⟩⟩ <;> simp_all
  | some f => simp [List.mem_filter, @eq_comm _ stored name]

theorem WellFormed.mem_visible {m : RoleManager} (h : m.WellFormed) (domain : Option String)
    (g : LinkGraph) :
    g ∈ m.visible domain ↔ ∃ key, m.Sees domain key ∧ m.domains.find key = some g := by
  have hfilter : ∀ d (f : NameMatch),
      g ∈ (m.domains.filter fun e => e.1 != noDomain && (e.1 == d || f d e.1)).map (·.2) ↔
        ∃ key, (key ≠ noDomain ∧ (key = d ∨ f d key = true)) ∧ m.domains.find key = some g := by
    intro d f
    simp only [List.mem_map, List.mem_filter, Prod.exists, Table.find_eq_some_iff h.distinct]
    constructor
    · rintro ⟨key, k, ⟨hmem, htest⟩, rfl⟩
      exact ⟨key, by simpa using htest, hmem⟩
    · rintro ⟨key, htest, hmem⟩
      exact ⟨key, g, ⟨hmem, by simpa using htest⟩, rfl⟩
  unfold visible Sees
  cases domain with
  | none => simp [eq_comm]
  | some d =>
    cases m.domainMatch with
    | none => simp [eq_comm]
    | some f => exact hfilter d f

theorem WellFormed.mem_rolesFrom {m : RoleManager} (h : m.WellFormed) (domain : Option String)
    (name role : String) :
    role ∈ m.rolesFrom (m.visible domain) name ↔ m.DirectRole domain name role := by
  simp only [rolesFrom, List.mem_flatMap, h.mem_visible, mem_nodesMatching]
  constructor
  · rintro ⟨g, ⟨key, hkey, hg⟩, stored, ⟨-, hname⟩, hrole⟩
    refine ⟨key, hkey, stored, hname, ?_⟩
    rwa [Link, graphAt, hg]
  · rintro ⟨key, hkey, stored, hname, hlink⟩
    rw [Link, graphAt] at hlink
    cases hg : m.domains.find key with
    | none =>
      rw [hg] at hlink
      exact absurd hlink (LinkGraph.edge_empty _ _)
    | some g =>
      rw [hg] at hlink
      exact ⟨g, ⟨key, hkey, hg⟩, stored, ⟨LinkGraph.mem_keys_of_mem_rolesOf hlink, hname⟩, hlink⟩

/-! ## The search -/

/-- What the search keeps about the names it saw: they are no match, and their roles are seen too
unless they are on the current level. -/
def Searched (m : RoleManager) (domain : Option String) (role : String)
    (frontier seen : List String) : Prop :=
  ∀ s ∈ seen, ¬ m.Names role s ∧ (s ∈ frontier ∨ ∀ next, m.DirectRole domain s next → next ∈ seen)

/-- A match that is some steps away from a seen name is no more steps away from the current level. -/
theorem Searched.roleAway_frontier {m : RoleManager} {domain : Option String} {role : String}
    {frontier seen : List String} (h : m.Searched domain role frontier seen) {k : Nat} {s : String}
    (hs : s ∈ seen) (haway : m.RoleAway domain role k s) :
    ∃ x ∈ frontier, ∃ j, 1 ≤ j ∧ j ≤ k ∧ m.RoleAway domain role j x := by
  induction k generalizing s with
  | zero => exact absurd haway (h s hs).1
  | succ k ih =>
    rcases (h s hs).2 with hfront | hroles
    · exact ⟨s, hfront, k + 1, by omega, Nat.le_refl _, haway⟩
    · obtain ⟨next, hstep, hnext⟩ := haway
      obtain ⟨x, hx, j, hj, hjk, haway⟩ := ih (hroles next hstep) hnext
      exact ⟨x, hx, j, hj, by omega, haway⟩

/-- From one level of the search to the next. -/
theorem Searched.step {m : RoleManager} {domain : Option String} {role : String}
    {frontier seen roles : List String} (h : m.Searched domain role frontier seen)
    (hroles : ∀ next, next ∈ roles ↔ ∃ x ∈ frontier, m.DirectRole domain x next)
    (hnone : ∀ next ∈ roles, ¬ m.Names role next) :
    m.Searched domain role (unseen seen roles) (unseen seen roles ++ seen) := by
  intro s hs
  rcases List.mem_append.1 hs with hnew | hold
  · exact ⟨hnone s ((mem_unseen roles seen s).1 hnew).1, Or.inl hnew⟩
  · refine ⟨(h s hold).1, Or.inr fun next hstep => ?_⟩
    rcases (h s hold).2 with hfront | hseen
    · by_cases hn : next ∈ seen
      · exact List.mem_append_right _ hn
      · exact List.mem_append_left _
          ((mem_unseen roles seen next).2 ⟨(hroles next).2 ⟨s, hfront, hstep⟩, hn⟩)
    · exact List.mem_append_right _ (hseen next hstep)

/-- The search finds a role exactly when a match is at most `level` steps from the frontier. -/
theorem WellFormed.reaches_iff {m : RoleManager} (hm : m.WellFormed) (domain : Option String)
    (role : String) (level : Nat) (frontier seen : List String)
    (h : m.Searched domain role frontier seen) :
    m.reaches (m.visible domain) role level frontier seen = true ↔
      ∃ x ∈ frontier, ∃ k, 1 ≤ k ∧ k ≤ level ∧ m.RoleAway domain role k x := by
  induction level generalizing frontier seen with
  | zero =>
    simp only [reaches, Bool.false_eq_true, false_iff]
    rintro ⟨x, -, k, hk, hk', -⟩
    omega
  | succ level ih =>
    have hroles : ∀ next, next ∈ frontier.flatMap (m.rolesFrom (m.visible domain)) ↔
        ∃ x ∈ frontier, m.DirectRole domain x next := by
      intro next
      simp only [List.mem_flatMap, hm.mem_rolesFrom]
    rw [reaches]
    by_cases hany : (frontier.flatMap (m.rolesFrom (m.visible domain))).any (m.namesMatch role) = true
    · rw [if_pos hany]
      obtain ⟨next, hnext, hmatch⟩ := List.any_eq_true.1 hany
      obtain ⟨x, hx, hstep⟩ := (hroles next).1 hnext
      simp only [true_iff]
      exact ⟨x, hx, 1, Nat.le_refl 1, by omega, next, hstep, (namesMatch_iff m role next).1 hmatch⟩
    · have hnone : ∀ next ∈ frontier.flatMap (m.rolesFrom (m.visible domain)),
          ¬ m.Names role next := by
        intro next hnext hmatch
        exact hany (List.any_eq_true.2 ⟨next, hnext, (namesMatch_iff m role next).2 hmatch⟩)
      have hnextLevel := h.step hroles hnone
      rw [if_neg hany]
      dsimp only
      constructor
      · intro hfound
        split at hfound
        · simp at hfound
        · obtain ⟨next, hnext, k, hk, hk', haway⟩ := (ih _ _ hnextLevel).1 hfound
          obtain ⟨x, hx, hstep⟩ := (hroles next).1 ((mem_unseen _ _ _).1 hnext).1
          exact ⟨x, hx, k + 1, by omega, by omega, next, hstep, haway⟩
      · rintro ⟨x, hx, k, hk, hk', haway⟩
        -- of all chains from the frontier, a shortest one starts with a step to an unseen role
        induction k using Nat.strongRecOn generalizing x with
        | ind k shorter =>
          obtain ⟨j, rfl⟩ : ∃ j, k = j + 1 := ⟨k - 1, by omega⟩
          obtain ⟨next, hstep, hnext⟩ := haway
          have hmem := (hroles next).2 ⟨x, hx, hstep⟩
          have hpos : 1 ≤ j := by
            rcases Nat.eq_zero_or_pos j with rfl | hpos
            · exact absurd hnext (hnone next hmem)
            · exact hpos
          by_cases hseen : next ∈ seen
          · obtain ⟨y, hy, i, hi, hij, haway⟩ := h.roleAway_frontier hseen hnext
            exact shorter i (by omega) y hy hi (by omega) haway
          · have hunseen := (mem_unseen _ _ _).2 ⟨hmem, hseen⟩
            rw [if_neg (by
              rw [List.isEmpty_iff]
              exact List.ne_nil_of_mem hunseen)]
            exact (ih _ _ hnextLevel).2 ⟨next, hunseen, j, hpos, by omega, hnext⟩

/-- A query holds when the names match, or a match is at most `maxLevel` steps away. -/
theorem WellFormed.hasLink_iff {m : RoleManager} (hm : m.WellFormed) (name role : String)
    (domain : Option String) :
    m.hasLink name role domain = true ↔ m.Names name role ∨
      ∃ k, 1 ≤ k ∧ k ≤ m.maxLevel ∧ m.RoleAway domain role k name := by
  rw [hasLink, Bool.or_eq_true, namesMatch_iff,
    hm.reaches_iff domain role m.maxLevel [name] [] (fun s hs => by simp at hs)]
  simp

/-- Managers with the same settings and the same links answer alike. -/
theorem WellFormed.hasLink_eq {m k : RoleManager} (hm : m.WellFormed) (hk : k.WellFormed)
    (hlevel : k.maxLevel = m.maxLevel) (hname : k.nameMatch = m.nameMatch)
    (hdomain : k.domainMatch = m.domainMatch)
    (hlinks : ∀ key x y, k.Link key x y ↔ m.Link key x y) (name role : String)
    (domain : Option String) : k.hasLink name role domain = m.hasLink name role domain := by
  have hnames : ∀ x y, k.Names x y ↔ m.Names x y := by
    intro x y
    rw [Names, Names, hname]
  have hstep : ∀ x y, k.DirectRole domain x y ↔ m.DirectRole domain x y := by
    intro x y
    simp only [DirectRole, Sees, hdomain, hnames, hlinks]
  have haway : ∀ j x, k.RoleAway domain role j x ↔ m.RoleAway domain role j x := by
    intro j
    induction j with
    | zero => exact fun x => hnames role x
    | succ j ih => exact fun x => exists_congr fun next => and_congr (hstep x next) (ih next)
  rw [Bool.eq_iff_iff, hm.hasLink_iff, hk.hasLink_iff, hnames, hlevel]
  simp only [haway]

/-! ## Top theorem (proved from the lemmas above) -/

/-- **Role queries.**  Whatever operations built a manager, a query holds exactly when the names match
or a chain of 1 to `maxLevel` stored links the query sees ends in a match; every name is a role of
itself; and managers with the same settings and the same links answer alike, however they came to
have these links. -/
theorem hasLink_run_iff (level : Nat) (operations : List Operation) :
    let m := run { maxLevel := level } operations
    (∀ name role domain, m.hasLink name role domain = true ↔ m.Names name role ∨
      ∃ k, 1 ≤ k ∧ k ≤ m.maxLevel ∧ ∃ names : Nat → String, names 0 = name ∧
        (∀ i < k, m.DirectRole domain (names i) (names (i + 1))) ∧ m.Names role (names k)) ∧
    (∀ name domain, m.hasLink name name domain = true) ∧
    ∀ otherLevel otherOperations,
      let k := run { maxLevel := otherLevel } otherOperations
      k.maxLevel = m.maxLevel → k.nameMatch = m.nameMatch → k.domainMatch = m.domainMatch →
        (∀ key x y, k.Link key x y ↔ m.Link key x y) →
          ∀ name role domain, k.hasLink name role domain = m.hasLink name role domain := by
  intro m
  have hm : m.WellFormed := wellFormed_run (wellFormed_new level) operations
  refine ⟨fun name role domain => ?_, fun name domain => ?_, ?_⟩
  · rw [hm.hasLink_iff]
    simp only [roleAway_iff]
  · exact (hm.hasLink_iff name name domain).2 (Or.inl (Or.inl rfl))
  · intro otherLevel otherOperations k hlevel hname hdomain hlinks name role domain
    have hk : k.WellFormed := wellFormed_run (wellFormed_new otherLevel) otherOperations
    exact hm.hasLink_eq hk hlevel hname hdomain hlinks name role domain

/-- A cycle with a pattern on it: `ann` inherits `staff` over two links, whichever was added first. -/
theorem hasLink_cycle :
    let pattern : NameMatch := fun name stored => name == "ann" && stored == "a*"
    let settings : List Operation := [.setMaxLevel 2, .setNameMatch (some pattern)]
    let links : List Operation :=
      [.addLink "a*" "team" none, .addLink "team" "staff" none, .addLink "staff" "a*" none]
    let m := run { maxLevel := 1 } (links ++ settings)
    let k := run { maxLevel := 7 } (links.reverse ++ settings)
    k.maxLevel = m.maxLevel ∧ k.nameMatch = m.nameMatch ∧ k.domainMatch = m.domainMatch ∧
      (∀ key x y, k.Link key x y ↔ m.Link key x y) ∧
      m.hasLink "ann" "staff" none = true ∧ k.hasLink "ann" "staff" none = true := by
  intro pattern settings links m k
  have hlink : ∀ key x y, m.Link key x y ↔ key = noDomain ∧
      ((x = "a*" ∧ y = "team") ∨ (x = "team" ∧ y = "staff") ∨ (x = "staff" ∧ y = "a*")) := by
    intro key x y
    show (((({ maxLevel := 1 } : RoleManager).withLink "a*" "team" none).withLink "team" "staff"
      none).withLink "staff" "a*" none).Link key x y ↔ _
    simp only [link_withLink, domainKey]
    simp [Link, graphAt]
    tauto
  have hsame : ∀ key x y, k.Link key x y ↔ m.Link key x y := by
    intro key x y
    rw [hlink]
    show (((({ maxLevel := 7 } : RoleManager).withLink "staff" "a*" none).withLink "team" "staff"
      none).withLink "a*" "team" none).Link key x y ↔ _
    simp only [link_withLink, domainKey]
    simp [Link, graphAt]
    tauto
  obtain ⟨hiff, -, heq⟩ := hasLink_run_iff 1 (links ++ settings)
  have hchain : m.hasLink "ann" "staff" none = true := by
    refine (hiff "ann" "staff" none).2 (Or.inr ⟨2, by decide, by decide,
      fun i => if i = 0 then "ann" else if i = 1 then "team" else "staff", rfl, fun i hi => ?_,
      Or.inl rfl⟩)
    rcases (by omega : i = 0 ∨ i = 1) with rfl | rfl
    · exact ⟨noDomain, rfl, "a*", Or.inr ⟨pattern, rfl, rfl⟩, (hlink _ _ _).2 (by simp)⟩
    · exact ⟨noDomain, rfl, "team", Or.inl rfl, (hlink _ _ _).2 (by simp)⟩
  refine ⟨rfl, rfl, rfl, hsame, hchain, ?_⟩
  rw [← hchain]
  exact heq 7 (links.reverse ++ settings) rfl rfl rfl hsame "ann" "staff" none

end RoleManager

end AccessControl
