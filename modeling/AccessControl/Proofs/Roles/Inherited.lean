import AccessControl.Proofs.Roles.Inheritance
import AccessControl.Roles.Inherited
import Mathlib.Data.Finset.Card
import Mathlib.Logic.Relation
/-!
# What the inherited roles are

The search for all roles of a name goes through a queue and keeps the names it found.  Everything it finds
comes from the queue over direct roles, and when it ends, the roles of every name that was in the queue were
found, now or before.  It ends before its bound, for every name enters the queue once, and all but the first
are roles of stored links.

    what is found comes from the queue                                 (`inheritedFrom_sound`)
    the roles of what was in the queue are found                       (`inheritedFrom_closed`)
    role ∈ m.inherited name domain ↔ role ≠ name and one or more steps lead to it
                                                                       (`WellFormed.mem_inherited`)
-/

namespace AccessControl

namespace RoleManager

variable {m : RoleManager} {domain : Option String}

/-! ## Direct roles -/

theorem WellFormed.mem_roles (hm : m.WellFormed) (name role : String) :
    role ∈ m.roles name domain ↔ m.DirectRole domain name role := by
  rw [roles, mem_distinct, hm.mem_rolesFrom]

/-- A query looks at graphs of the manager only. -/
theorem mem_values_of_mem_visible {g : LinkGraph} (h : g ∈ m.visible domain) :
    g ∈ m.domains.values := by
  unfold visible at h
  split at h
  · obtain ⟨e, he, rfl⟩ := List.mem_map.1 h
    exact List.mem_map_of_mem (List.mem_of_mem_filter he)
  · rw [Option.mem_toList] at h
    exact List.mem_map_of_mem (Table.mem_of_find h)

/-- A direct role is a role of some link. -/
theorem mem_roleNames_of_mem_roles {name role : String} (h : role ∈ m.roles name domain) :
    role ∈ m.roleNames := by
  unfold roles at h
  rw [mem_distinct, rolesFrom, List.mem_flatMap] at h
  obtain ⟨g, hg, hrole⟩ := h
  obtain ⟨stored, -, hrole⟩ := List.mem_flatMap.1 hrole
  unfold LinkGraph.rolesOf at hrole
  cases hnode : g.nodes.find stored with
  | none => simp [hnode] at hrole
  | some node =>
    rw [hnode] at hrole
    have hvalue : node ∈ g.nodes.values := List.mem_map_of_mem (Table.mem_of_find hnode)
    exact List.mem_flatMap.2 ⟨g, mem_values_of_mem_visible hg, List.mem_flatMap.2 ⟨node, hvalue, hrole⟩⟩

/-! ## The search -/

/-- What a name adds to a search: its direct roles that are new, without the name it is about. -/
def newRoles (m : RoleManager) (name : String) (domain : Option String) (seen : List String)
    (current : String) : List String :=
  (unseen seen (m.roles current domain)).filter (· != name)

variable {name : String}

theorem inheritedFrom_cons (fuel : Nat) (current : String) (queue seen : List String) :
    m.inheritedFrom name domain (fuel + 1) (current :: queue) seen =
      m.newRoles name domain seen current ++ m.inheritedFrom name domain fuel
        (queue ++ m.newRoles name domain seen current) (seen ++ m.newRoles name domain seen current) :=
  rfl

theorem mem_newRoles (seen : List String) (current role : String) :
    role ∈ m.newRoles name domain seen current ↔
      role ∈ m.roles current domain ∧ role ∉ seen ∧ role ≠ name := by
  rw [newRoles, List.mem_filter, mem_unseen, bne_iff_ne, and_assoc]

theorem nodup_newRoles (seen : List String) (current : String) :
    (m.newRoles name domain seen current).Nodup := (nodup_unseen _ _).filter _

/-- A role is found once, and is neither the name itself nor one that was seen. -/
theorem inheritedFrom_nodup (fuel : Nat) (queue seen : List String) :
    (m.inheritedFrom name domain fuel queue seen).Nodup ∧
      ∀ role ∈ m.inheritedFrom name domain fuel queue seen, role ∉ seen ∧ role ≠ name := by
  induction fuel generalizing queue seen with
  | zero => simp [inheritedFrom]
  | succ fuel ih =>
    cases queue with
    | nil => simp [inheritedFrom]
    | cons current queue =>
      rw [inheritedFrom_cons]
      obtain ⟨hnodup, hrest⟩ := ih (queue ++ m.newRoles name domain seen current)
        (seen ++ m.newRoles name domain seen current)
      refine ⟨List.nodup_append.2 ⟨nodup_newRoles seen current, hnodup, ?_⟩, fun role hrole => ?_⟩
      · rintro role hnew _ hlater rfl
        exact (hrest role hlater).1 (List.mem_append_right seen hnew)
      · rcases List.mem_append.1 hrole with hnew | hlater
        · exact ((mem_newRoles seen current role).1 hnew).2
        · exact ⟨fun hseen => (hrest role hlater).1 (List.mem_append_left _ hseen),
            (hrest role hlater).2⟩

/-- What is found comes from a name in the queue. -/
theorem WellFormed.inheritedFrom_sound (hm : m.WellFormed) (fuel : Nat) (queue seen : List String) :
    ∀ role ∈ m.inheritedFrom name domain fuel queue seen,
      ∃ start ∈ queue, Relation.TransGen (m.DirectRole domain) start role := by
  induction fuel generalizing queue seen with
  | zero => simp [inheritedFrom]
  | succ fuel ih =>
    cases queue with
    | nil => simp [inheritedFrom]
    | cons current queue =>
      intro role hrole
      have hstep : ∀ found ∈ m.newRoles name domain seen current,
          m.DirectRole domain current found := fun found hfound =>
        (hm.mem_roles current found).1 ((mem_newRoles seen current found).1 hfound).1
      rw [inheritedFrom_cons] at hrole
      rcases List.mem_append.1 hrole with hnew | hlater
      · exact ⟨current, List.mem_cons_self, .single (hstep role hnew)⟩
      · obtain ⟨start, hstart, hchain⟩ := ih _ _ role hlater
        rcases List.mem_append.1 hstart with hstart | hstart
        · exact ⟨start, List.mem_cons_of_mem current hstart, hchain⟩
        · exact ⟨current, List.mem_cons_self, .head (hstep start hstart) hchain⟩

/-- The roles of links that a search has not seen. -/
def unseenRoles (m : RoleManager) (seen : List String) : Finset String :=
  m.roleNames.toFinset \ seen.toFinset

/-- What a name adds is taken from the roles not seen. -/
theorem card_unseenRoles (seen : List String) (current : String) :
    (m.unseenRoles (seen ++ m.newRoles name domain seen current)).card +
      (m.newRoles name domain seen current).length = (m.unseenRoles seen).card := by
  have hsub : (m.newRoles name domain seen current).toFinset ⊆ m.unseenRoles seen := by
    intro role hrole
    rw [List.mem_toFinset] at hrole
    obtain ⟨hmem, hseen, -⟩ := (mem_newRoles seen current role).1 hrole
    simp [unseenRoles, mem_roleNames_of_mem_roles hmem, hseen]
  have hcard : (m.newRoles name domain seen current).toFinset.card =
      (m.newRoles name domain seen current).length :=
    List.toFinset_card_of_nodup (nodup_newRoles seen current)
  have heq : m.unseenRoles (seen ++ m.newRoles name domain seen current) =
      m.unseenRoles seen \ (m.newRoles name domain seen current).toFinset := by
    rw [unseenRoles, unseenRoles, List.toFinset_append, sdiff_sdiff_left]
    rfl
  rw [heq, ← hcard, Finset.card_sdiff_add_card_eq_card hsub]

/-- The roles of every name that was in the queue are found, or were before; the names in the queue and the
roles not seen bound the search. -/
theorem inheritedFrom_closed {fuel : Nat} {queue seen : List String}
    (hfuel : queue.length + (m.unseenRoles seen).card ≤ fuel) :
    ∀ current ∈ queue ++ m.inheritedFrom name domain fuel queue seen,
      ∀ role ∈ m.roles current domain, role = name ∨ role ∈ seen ∨
        role ∈ m.inheritedFrom name domain fuel queue seen := by
  induction fuel generalizing queue seen with
  | zero =>
    obtain rfl : queue = [] := List.eq_nil_of_length_eq_zero (by omega)
    simp [inheritedFrom]
  | succ fuel ih =>
    cases queue with
    | nil => simp [inheritedFrom]
    | cons first queue =>
      have hcard : (m.unseenRoles (seen ++ m.newRoles name domain seen first)).card +
          (m.newRoles name domain seen first).length = (m.unseenRoles seen).card :=
        card_unseenRoles seen first
      rw [List.length_cons] at hfuel
      have hbound : (queue ++ m.newRoles name domain seen first).length +
          (m.unseenRoles (seen ++ m.newRoles name domain seen first)).card ≤ fuel := by
        rw [List.length_append]
        omega
      have hrest := ih hbound
      intro current hcurrent role hrole
      rw [inheritedFrom_cons] at hcurrent ⊢
      by_cases hfirst : current = first
      · subst hfirst
        by_cases hname : role = name
        · exact Or.inl hname
        · by_cases hseen : role ∈ seen
          · exact Or.inr (Or.inl hseen)
          · exact Or.inr (Or.inr (List.mem_append_left _
              ((mem_newRoles seen current role).2 ⟨hrole, hseen, hname⟩)))
      · have hlater : current ∈ (queue ++ m.newRoles name domain seen first) ++
            m.inheritedFrom name domain fuel (queue ++ m.newRoles name domain seen first)
              (seen ++ m.newRoles name domain seen first) := by
          rw [List.append_assoc]
          exact List.mem_of_ne_of_mem hfirst hcurrent
        rcases hrest current hlater role hrole with hname | hseen | hfound
        · exact Or.inl hname
        · rcases List.mem_append.1 hseen with hseen | hnew
          · exact Or.inr (Or.inl hseen)
          · exact Or.inr (Or.inr (List.mem_append_left _ hnew))
        · exact Or.inr (Or.inr (List.mem_append_right _ hfound))

/-! ## All roles of a name -/

theorem nodup_inherited (m : RoleManager) (name : String) (domain : Option String) :
    (m.inherited name domain).Nodup := (inheritedFrom_nodup _ _ _).1

/-- The search for the roles of a name starts within its bound. -/
theorem bound_inherited (m : RoleManager) (name : String) :
    [name].length + (m.unseenRoles []).card ≤ m.roleNames.length + 2 := by
  have hcard : (m.unseenRoles []).card ≤ m.roleNames.length := by
    rw [unseenRoles, List.toFinset_nil, Finset.sdiff_empty]
    exact List.toFinset_card_le m.roleNames
  rw [List.length_singleton]
  omega

/-- The roles of the name and of its roles are among its roles, but for the name. -/
theorem inherited_closed {current role : String}
    (hcurrent : current = name ∨ current ∈ m.inherited name domain)
    (hrole : role ∈ m.roles current domain) : role = name ∨ role ∈ m.inherited name domain := by
  rcases inheritedFrom_closed (m.bound_inherited name) current (List.mem_cons.2 hcurrent) role hrole with
    hname | hseen | hfound
  · exact Or.inl hname
  · simp at hseen
  · exact Or.inr hfound

/-- The roles of a name are the names that one or more direct roles lead to, but for itself. -/
theorem WellFormed.mem_inherited (hm : m.WellFormed) (name role : String) :
    role ∈ m.inherited name domain ↔
      role ≠ name ∧ Relation.TransGen (m.DirectRole domain) name role := by
  constructor
  · intro hrole
    obtain ⟨start, hstart, hchain⟩ := hm.inheritedFrom_sound _ _ _ role hrole
    rw [List.mem_singleton.1 hstart] at hchain
    exact ⟨((inheritedFrom_nodup _ _ _).2 role hrole).2, hchain⟩
  · have hfound : ∀ found, Relation.TransGen (m.DirectRole domain) name found →
        found = name ∨ found ∈ m.inherited name domain := by
      intro found hchain
      induction hchain with
      | single hstep => exact inherited_closed (Or.inl rfl) ((hm.mem_roles name _).2 hstep)
      | tail _ hstep ih => exact inherited_closed ih ((hm.mem_roles _ _).2 hstep)
    rintro ⟨hne, hchain⟩
    exact (hfound role hchain).resolve_left hne

/-! ## Queries and all roles -/

/-- Whether a role is the name itself, or at most as many steps away as a query follows. -/
def Within (m : RoleManager) (domain : Option String) (name role : String) : Prop :=
  role = name ∨ ∃ k, 1 ≤ k ∧ k ≤ m.maxLevel ∧ m.RoleAway domain role k name

theorem WellFormed.hasLink_of_within (hm : m.WellFormed) {name role : String}
    (h : m.Within domain name role) : m.hasLink name role domain = true := by
  rw [hm.hasLink_iff]
  exact h.imp_left fun heq => Or.inl heq.symm

/-- Where names are taken as they are, a query holds for what is within its level. -/
theorem WellFormed.hasLink_iff_within (hm : m.WellFormed) (hplain : m.nameMatch = none)
    (name role : String) : m.hasLink name role domain = true ↔ m.Within domain name role := by
  refine ⟨fun h => ((hm.hasLink_iff name role domain).1 h).imp_left ?_, hm.hasLink_of_within⟩
  rintro (heq | ⟨f, hf, -⟩)
  · exact heq.symm
  · simp [hplain] at hf

/-- What is some steps away is reached by direct roles. -/
theorem RoleAway.transGen (hplain : m.nameMatch = none) {k : Nat} {name role : String}
    (h : m.RoleAway domain role (k + 1) name) : Relation.TransGen (m.DirectRole domain) name role := by
  induction k generalizing name with
  | zero =>
    obtain ⟨next, hstep, heq | ⟨f, hf, -⟩⟩ := h
    · exact heq ▸ .single hstep
    · simp [hplain] at hf
  | succ k ih =>
    obtain ⟨next, hstep, haway⟩ := h
    exact .head hstep (ih haway)

/-- What a query finds is the name itself or one of its roles. -/
theorem WellFormed.mem_inherited_of_within (hm : m.WellFormed) (hplain : m.nameMatch = none)
    {name role : String} (h : m.Within domain name role) :
    role = name ∨ role ∈ m.inherited name domain := by
  by_cases heq : role = name
  · exact Or.inl heq
  · obtain ⟨k, hk, -, haway⟩ := h.resolve_left heq
    obtain ⟨j, rfl⟩ : ∃ j, k = j + 1 := ⟨k - 1, by omega⟩
    exact Or.inr ((hm.mem_inherited name role).2 ⟨heq, haway.transGen hplain⟩)

end RoleManager

end AccessControl
