import AccessControl.Proofs.Roles.Arenas
import AccessControl.Proofs.Roles.Domains
import Mathlib.Data.List.Nodup
/-!
# Managers as lists of links

Without matching a manager is a list of links, each in a domain and each once, in the order in which they were
added.  A link that is added again keeps its place, a link that would close a cycle does not come in where
cycles are refused, and a link that was dropped comes in at the end when it is added again.  The roles of a
name, and the users of a role, are those of its links in this order.

    m.Lists links → one step → the next manager lists the next links    (`Lists.step`)
    m.roles name domain = rolesIn links (domainKey domain) name         (`Lists.roles_eq`)
-/

namespace AccessControl

/-- A link in the domain with a key. -/
structure HeldLink where
  key : String
  name : String
  role : String
  deriving DecidableEq

/-- A change of links, the addition of one with or without regard to cycles. -/
inductive LinkStep where
  | add (rejectCycles : Bool) (name role : String) (domain : Option String)
  | delete (name role : String) (domain : Option String)
  | clear

open RoleManager (domainKey)

/-- A change of links as operations of a manager. -/
def LinkStep.operations : LinkStep → List RoleManager.Operation
  | .add rejectCycles name role domain => [.rejectCycles rejectCycles, .addLink name role domain]
  | .delete name role domain => [.deleteLink name role domain]
  | .clear => [.clear]

/-- A change of links by ids. -/
def Arenas.step (arenas : Arenas) : LinkStep → Arenas
  | .add rejectCycles name role domain => (arenas.insertLink rejectCycles name role domain).2
  | .delete name role domain => arenas.deleteLink name role domain
  | .clear => []

/-! ## Lists of links -/

/-- Whether the links of a domain lead from a role back to a name. -/
def LeadsBack (links : List HeldLink) (key name role : String) : Prop :=
  Relation.ReflTransGen (fun x y => ⟨key, x, y⟩ ∈ links) role name

open Classical in
/-- A change of links as one of a list. -/
noncomputable def stepLinks (links : List HeldLink) : LinkStep → List HeldLink
  | .add rejectCycles name role domain =>
    if rejectCycles = true ∧ LeadsBack links (domainKey domain) name role then links
    else addNew links ⟨domainKey domain, name, role⟩
  | .delete name role domain => links.erase ⟨domainKey domain, name, role⟩
  | .clear => []

/-- The roles in the links of a name in a domain, in order. -/
def rolesIn (links : List HeldLink) (key name : String) : List String :=
  (links.filter fun l => l.key = key ∧ l.name = name).map (·.role)

/-- The users in the links to a role in a domain, in order. -/
def usersIn (links : List HeldLink) (key role : String) : List String :=
  (links.filter fun l => l.key = key ∧ l.role = role).map (·.name)

section

variable {α β : Type} [DecidableEq α] [DecidableEq β] {p : α → Bool} {f : α → β}
  (hf : ∀ x y, p x = true → p y = true → f x = f y → x = y)

include hf

/-- The chosen members, under a map that tells them apart, when a member comes to the end. -/
theorem map_filter_addNew (xs : List α) (x : α) : ((addNew xs x).filter p).map f =
    if p x = true then addNew ((xs.filter p).map f) (f x) else (xs.filter p).map f := by
  have hfilter : (addNew xs x).filter p = if p x = true then addNew (xs.filter p) x else xs.filter p := by
    unfold addNew
    by_cases hx : x ∈ xs <;> by_cases hp : p x = true <;> simp [hx, hp]
  rw [hfilter]
  split
  · next hp => exact map_addNew fun y hy heq => hf y x (List.of_mem_filter hy) hp heq
  · rfl

/-- The chosen members, under a map that tells them apart, when a member is dropped. -/
theorem map_filter_erase (xs : List α) (x : α) : ((xs.erase x).filter p).map f =
    if p x = true then ((xs.filter p).map f).erase (f x) else (xs.filter p).map f := by
  rw [← List.erase_filter]
  split
  · next hp => exact map_erase_of_mem fun y hy heq => hf y x (List.of_mem_filter hy) hp heq
  · next hp => rw [List.erase_of_not_mem fun hx => hp (List.of_mem_filter hx)]

end

section

variable {links : List HeldLink} {key name role : String}

theorem mem_rolesIn : role ∈ rolesIn links key name ↔ ⟨key, name, role⟩ ∈ links := by
  simp only [rolesIn, List.mem_map, List.mem_filter, decide_eq_true_eq]
  constructor
  · rintro ⟨l, ⟨hl, rfl, rfl⟩, rfl⟩
    exact hl
  · intro h
    exact ⟨_, ⟨h, rfl, rfl⟩, rfl⟩

theorem mem_usersIn : name ∈ usersIn links key role ↔ ⟨key, name, role⟩ ∈ links := by
  simp only [usersIn, List.mem_map, List.mem_filter, decide_eq_true_eq]
  constructor
  · rintro ⟨l, ⟨hl, rfl, rfl⟩, rfl⟩
    exact hl
  · intro h
    exact ⟨_, ⟨h, rfl, rfl⟩, rfl⟩

/-- The links of a name in a domain are told by their roles. -/
theorem HeldLink.eq_of_role (key name : String) (x y : HeldLink) (hx : decide (x.key = key ∧ x.name = name) = true)
    (hy : decide (y.key = key ∧ y.name = name) = true) (h : x.role = y.role) : x = y := by
  simp only [decide_eq_true_eq] at hx hy
  rw [HeldLink.mk.injEq]
  exact ⟨hx.1.trans hy.1.symm, hx.2.trans hy.2.symm, h⟩

/-- The links to a role in a domain are told by their users. -/
theorem HeldLink.eq_of_user (key role : String) (x y : HeldLink) (hx : decide (x.key = key ∧ x.role = role) = true)
    (hy : decide (y.key = key ∧ y.role = role) = true) (h : x.name = y.name) : x = y := by
  simp only [decide_eq_true_eq] at hx hy
  rw [HeldLink.mk.injEq]
  exact ⟨hx.1.trans hy.1.symm, h, hx.2.trans hy.2.symm⟩

/-- A new link gives its name a new role, behind the others. -/
theorem rolesIn_addNew (l : HeldLink) : rolesIn (addNew links l) key name =
    if l.key = key ∧ l.name = name then addNew (rolesIn links key name) l.role
    else rolesIn links key name := by
  have h := map_filter_addNew (HeldLink.eq_of_role key name) links l
  simpa only [rolesIn, usersIn, decide_eq_true_eq] using h

theorem usersIn_addNew (l : HeldLink) : usersIn (addNew links l) key role =
    if l.key = key ∧ l.role = role then addNew (usersIn links key role) l.name
    else usersIn links key role := by
  have h := map_filter_addNew (HeldLink.eq_of_user key role) links l
  simpa only [rolesIn, usersIn, decide_eq_true_eq] using h

/-- A link that is dropped takes its role from its name. -/
theorem rolesIn_erase (l : HeldLink) : rolesIn (links.erase l) key name =
    if l.key = key ∧ l.name = name then (rolesIn links key name).erase l.role
    else rolesIn links key name := by
  have h := map_filter_erase (HeldLink.eq_of_role key name) links l
  simpa only [rolesIn, usersIn, decide_eq_true_eq] using h

theorem usersIn_erase (l : HeldLink) : usersIn (links.erase l) key role =
    if l.key = key ∧ l.role = role then (usersIn links key role).erase l.name
    else usersIn links key role := by
  have h := map_filter_erase (HeldLink.eq_of_user key role) links l
  simpa only [rolesIn, usersIn, decide_eq_true_eq] using h

end

/-! ## What a manager lists -/

namespace RoleManager

/-- The links of a manager are those of a list, at both of their ends in its order. -/
structure Lists (m : RoleManager) (links : List HeldLink) : Prop where
  nodup : links.Nodup
  roles : ∀ key name, (m.graphAt key).rolesOf name = rolesIn links key name
  users : ∀ key role, (m.graphAt key).usersOf role = usersIn links key role

theorem lists_clear (m : RoleManager) : m.clear.Lists [] where
  nodup := List.nodup_nil
  roles _ _ := rfl
  users _ _ := rfl

variable {m : RoleManager} {links : List HeldLink}

theorem Lists.leadsBack_iff (h : m.Lists links) (key name role : String) :
    LeadsBack links key name role ↔ Relation.ReflTransGen (m.graphAt key).Edge role name := by
  have hedge : (fun x y => ⟨key, x, y⟩ ∈ links) = (m.graphAt key).Edge := by
    funext x y
    rw [LinkGraph.Edge, h.roles, mem_rolesIn]
  rw [LeadsBack, hedge]

theorem Lists.withLink (h : m.Lists links) (name role : String) (domain : Option String) :
    (m.withLink name role domain).Lists (addNew links ⟨domainKey domain, name, role⟩) where
  nodup := nodup_addNew h.nodup _
  roles key other := by
    rw [RoleManager.withLink, graphAt_put, rolesIn_addNew]
    by_cases hkey : domainKey domain = key
    · subst hkey
      rw [if_pos rfl, LinkGraph.rolesOf_link, h.roles, h.roles]
      by_cases hname : name = other
      · simp [hname]
      · simp [hname]
    · simp [hkey, h.roles]
  users key other := by
    rw [RoleManager.withLink, graphAt_put, usersIn_addNew]
    by_cases hkey : domainKey domain = key
    · subst hkey
      rw [if_pos rfl, LinkGraph.usersOf_link, h.users, h.users]
      by_cases hrole : role = other
      · simp [hrole]
      · simp [hrole]
    · simp [hkey, h.users]

theorem Lists.deleteLink (h : m.Lists links) (hm : m.WellFormed) (name role : String)
    (domain : Option String) :
    (m.deleteLink name role domain).Lists (links.erase ⟨domainKey domain, name, role⟩) where
  nodup := h.nodup.erase _
  roles key other := by
    rw [graphAt_deleteLink, rolesIn_erase]
    by_cases hkey : domainKey domain = key
    · subst hkey
      rw [if_pos rfl, (hm.graphs _).rolesOf_unlink, h.roles, h.roles]
      by_cases hname : name = other
      · simp [hname]
      · simp [hname]
    · simp [hkey, h.roles]
  users key other := by
    rw [graphAt_deleteLink, usersIn_erase]
    by_cases hkey : domainKey domain = key
    · subst hkey
      rw [if_pos rfl, (hm.graphs _).usersOf_unlink, h.users, h.users]
      by_cases hrole : role = other
      · simp [hrole]
      · simp [hrole]
    · simp [hkey, h.users]

/-- A link is refused where cycles are and its role leads back to its name, whatever cycles are held. -/
theorem WellFormed.insertLink_error_iff (hm : m.WellFormed) (name role : String) (domain : Option String) :
    (∃ err, (m.insertLink name role domain).1 = .error err) ↔ m.rejectCycles = true ∧
      Relation.ReflTransGen (m.graphAt (domainKey domain)).Edge role name := by
  have hgraph := hm.graphs (domainKey domain)
  unfold insertLink
  dsimp only
  by_cases hon : m.rejectCycles = true
  · rw [if_neg (by simp [hon])]
    by_cases hself : name = role
    · subst hself
      rw [if_pos rfl]
      simp [hon, Relation.ReflTransGen.refl]
    · rw [if_neg hself]
      cases hpath : ((m.graphAt (domainKey domain)).link name role).path? role name with
      | none =>
        have hback : ¬ Relation.ReflTransGen (m.graphAt (domainKey domain)).Edge role name := by
          intro hback
          -- the search goes through the graph with the new link, which has the old links too
          refine (hgraph.link name role).not_reaches_of_path? hpath (Relation.ReflTransGen.mono ?_ _ _ hback)
          exact fun x y hxy => (LinkGraph.edge_link _ name role x y).2 (Or.inl hxy)
        rw [graphAt] at hpath
        simp [hpath, hback]
      | some chain =>
        have hback := LinkGraph.reaches_of_reaches_link (LinkGraph.reaches_of_path? hpath)
        rw [graphAt] at hpath
        simp [hpath, hback, hon]
  · rw [if_pos (by simpa using hon)]
    simp [hon]

/-- What a step does to the links is what it does to the list. -/
theorem Lists.step (h : m.Lists links) (hm : m.WellFormed) (s : LinkStep) :
    (m.run s.operations).Lists (stepLinks links s) := by
  cases s with
  | delete name role domain => exact h.deleteLink hm name role domain
  | clear => exact lists_clear m
  | add rejectCycles name role domain =>
    -- how cycles are treated is set first, which changes no link
    let strict : RoleManager := { m with rejectCycles }
    have hstrict : strict.WellFormed := ⟨hm.distinct, hm.graphs⟩
    have hlists : strict.Lists links := ⟨h.nodup, h.roles, h.users⟩
    have hrefused := hstrict.insertLink_error_iff name role domain
    rw [← hlists.leadsBack_iff] at hrefused
    show (strict.insertLink name role domain).2.Lists _
    rw [stepLinks]
    rcases hinsert : strict.insertLink name role domain with ⟨err | ⟨⟩, k⟩
    · rw [if_pos (hrefused.1 ⟨err, by rw [hinsert]⟩), insertLink_error hinsert]
      exact hlists
    · rw [if_neg ?_, eq_withLink_of_insertLink hinsert]
      · exact hlists.withLink name role domain
      · intro hback
        obtain ⟨err, herr⟩ := hrefused.2 hback
        rw [hinsert] at herr
        cases herr

theorem run_append (m : RoleManager) (operations more : List Operation) :
    m.run (operations ++ more) = (m.run operations).run more := List.foldl_append

/-- What steps do to the links is what they do to the list. -/
theorem Lists.run (h : m.Lists links) (hm : m.WellFormed) (steps : List LinkStep) :
    (m.run (steps.flatMap LinkStep.operations)).Lists (steps.foldl stepLinks links) := by
  induction steps generalizing m links with
  | nil => exact h
  | cons s rest ih =>
    rw [List.flatMap_cons, run_append, List.foldl_cons]
    exact ih (h.step hm s) (wellFormed_run hm s.operations)

/-- Where names and domains are taken as they are, a query sees the graph of its domain. -/
theorem flatMap_visible {m : RoleManager} (hname : m.nameMatch = none) (hdomain : m.domainMatch = none)
    {ends : LinkGraph → String → List String} {name : String}
    (hends : ∀ g : LinkGraph, g.nodes.contains name = false → ends g name = []) (domain : Option String) :
    ((m.visible domain).flatMap fun g => (g.nodesMatching m.nameMatch name).flatMap (ends g)) =
      ends (m.graphAt (domainKey domain)) name := by
  have hvisible : m.visible domain = (m.domains.find (domainKey domain)).toList := by
    unfold visible
    rw [hdomain]
    cases domain <;> rfl
  rw [hvisible, hname, graphAt]
  cases m.domains.find (domainKey domain) with
  | none => exact (hends {} rfl).symm
  | some g =>
    unfold LinkGraph.nodesMatching
    cases hg : g.nodes.contains name with
    | false => simp [hg, hends g hg]
    | true => simp [hg]

/-- Where names and domains are taken as they are, a name has the roles of its links. -/
theorem Lists.roles_eq (h : m.Lists links) (hm : m.WellFormed) (hname : m.nameMatch = none)
    (hdomain : m.domainMatch = none) (name : String) (domain : Option String) :
    m.roles name domain = rolesIn links (domainKey domain) name := by
  have hends : ∀ g : LinkGraph, g.nodes.contains name = false → g.rolesOf name = [] := by
    intro g hg
    rw [Table.contains, Option.isSome_eq_false_iff, Option.isNone_iff_eq_none] at hg
    rw [LinkGraph.rolesOf, hg]
    rfl
  unfold RoleManager.roles rolesFrom
  rw [flatMap_visible hname hdomain hends, distinct_of_nodup ((hm.graphs _).nodup_roles name), h.roles]

/-- Where names and domains are taken as they are, a role has the users of its links. -/
theorem Lists.users_eq (h : m.Lists links) (hm : m.WellFormed) (hname : m.nameMatch = none)
    (hdomain : m.domainMatch = none) (role : String) (domain : Option String) :
    m.users role domain = usersIn links (domainKey domain) role := by
  have hends : ∀ g : LinkGraph, g.nodes.contains role = false → g.usersOf role = [] := by
    intro g hg
    rw [Table.contains, Option.isSome_eq_false_iff, Option.isNone_iff_eq_none] at hg
    rw [LinkGraph.usersOf, hg]
    rfl
  unfold RoleManager.users usersFrom
  rw [flatMap_visible hname hdomain hends, distinct_of_nodup ((hm.graphs _).nodup_users role), h.users]

/-! ## Settings and ids -/

/-- A change of links leaves the matching functions as they are. -/
theorem matching_run (m : RoleManager) (steps : List LinkStep) :
    (m.run (steps.flatMap LinkStep.operations)).nameMatch = m.nameMatch ∧
      (m.run (steps.flatMap LinkStep.operations)).domainMatch = m.domainMatch := by
  induction steps generalizing m with
  | nil => exact ⟨rfl, rfl⟩
  | cons s rest ih =>
    obtain ⟨hname, hdomain⟩ := ih (m.run s.operations)
    rw [List.flatMap_cons, run_append, hname, hdomain]
    cases s with
    | delete name role domain => exact ⟨rfl, rfl⟩
    | clear => exact ⟨rfl, rfl⟩
    | add rejectCycles name role domain =>
      let strict : RoleManager := { m with rejectCycles }
      have hsame : (strict.insertLink name role domain).2.clear = strict.clear :=
        clear_insertLink strict name role domain
      exact ⟨(congrArg RoleManager.nameMatch hsame :), (congrArg RoleManager.domainMatch hsame :)⟩

/-- A change of links by ids is the change by names. -/
theorem view_step {m : RoleManager} {arenas : Arenas} (h : arenas.AllValid) (hm : m.domains = arenas.view)
    (s : LinkStep) :
    (arenas.step s).AllValid ∧ (m.run s.operations).domains = (arenas.step s).view := by
  cases s with
  | delete name role domain => exact h.deleteLink hm name role domain
  | clear => exact ⟨Arenas.allValid_empty, rfl⟩
  | add rejectCycles name role domain =>
    obtain ⟨hvalid, -, hview⟩ := h.insertLink (m := { m with rejectCycles }) hm name role domain
    exact ⟨hvalid, hview⟩

theorem view_run {m : RoleManager} {arenas : Arenas} (h : arenas.AllValid) (hm : m.domains = arenas.view)
    (steps : List LinkStep) :
    (steps.foldl Arenas.step arenas).AllValid ∧
      (m.run (steps.flatMap LinkStep.operations)).domains = (steps.foldl Arenas.step arenas).view := by
  induction steps generalizing m arenas with
  | nil => exact ⟨h, hm⟩
  | cons s rest ih =>
    rw [List.flatMap_cons, run_append, List.foldl_cons]
    obtain ⟨hvalid, hview⟩ := view_step h hm s
    exact ih hvalid hview

/-! ## Top theorem (proved from the lemmas above) -/

/-- **A manager is a list of links.**  After any additions with or without regard to cycles, any deletions and
clearings, in any domains and without matching: the list has every link once; a link is refused where cycles
are and the links of the list lead from its role back to its name; the roles of a name and the users of a role
are those of its links, in the order of the list; so a name has a role exactly when the role has it as a user.
The links by ids are the same links by names, and give the same answers; and every id that a node keeps is
that of a node, so that neither an empty name nor a missing node ever stands in for one. -/
theorem links_run (level : Nat) (steps : List LinkStep) :
    let m := run { maxLevel := level } (steps.flatMap LinkStep.operations)
    let links := steps.foldl stepLinks []
    let arenas : Arenas := steps.foldl Arenas.step []
    links.Nodup ∧
    (∀ rejectCycles name role domain,
      (∃ err, (insertLink { m with rejectCycles } name role domain).1 = .error err) ↔
        rejectCycles = true ∧ LeadsBack links (domainKey domain) name role) ∧
    (∀ name domain, m.roles name domain = rolesIn links (domainKey domain) name) ∧
    (∀ role domain, m.users role domain = usersIn links (domainKey domain) role) ∧
    (∀ name role domain, role ∈ m.roles name domain ↔ name ∈ m.users role domain) ∧
    m.domains = arenas.view ∧
    (∀ name domain, arenas.roles name domain = m.roles name domain ∧
      arenas.users name domain = m.users name domain) ∧
    (∀ rejectCycles name role domain, (arenas.insertLink rejectCycles name role domain).1 =
      (insertLink { m with rejectCycles } name role domain).1) ∧
    ∀ key arena, arenas.find key = some arena → ∀ e ∈ arena.nodes, ∀ id ∈ e.2.roles ++ e.2.users,
      ∃ name node, arena.nodes[id]? = some (name, node) ∧ arena.name id = name ∧
        arena.node? id = some node := by
  intro m links arenas
  have hstart : ({ maxLevel := level } : RoleManager).Lists [] := lists_clear { maxLevel := level }
  have hm : m.WellFormed := wellFormed_run (wellFormed_new level) _
  have hlists : m.Lists links := hstart.run (wellFormed_new level) steps
  obtain ⟨hvalid, hview⟩ := view_run (m := { maxLevel := level }) Arenas.allValid_empty rfl steps
  obtain ⟨hname, hdomain⟩ := matching_run { maxLevel := level } steps
  have hroles := hlists.roles_eq hm hname hdomain
  have husers := hlists.users_eq hm hname hdomain
  refine ⟨hlists.nodup, ?_, hroles, husers, ?_, hview, ?_, ?_, ?_⟩
  · intro rejectCycles name role domain
    have hstrict : WellFormed { m with rejectCycles } := ⟨hm.distinct, hm.graphs⟩
    rw [hlists.leadsBack_iff]
    exact hstrict.insertLink_error_iff name role domain
  · intro name role domain
    rw [hroles, husers, mem_rolesIn, mem_usersIn]
  · intro name domain
    exact ⟨hvalid.roles_eq hview hname hdomain name domain, hvalid.users_eq hview hname hdomain name domain⟩
  · intro rejectCycles name role domain
    exact (hvalid.insertLink (m := { m with rejectCycles }) hview name role domain).2.1.symm
  · intro key arena hfound e he id hid
    obtain ⟨node, hnode⟩ := Arena.exists_node ((hvalid key arena hfound).ids e he id hid)
    exact ⟨node.1, node.2, hnode, Arena.name_eq hnode, by rw [Arena.node?, hnode]; rfl⟩

end RoleManager

end AccessControl
