import AccessControl.Authorizer.Roles
import AccessControl.Proofs.Roles.Inherited
import AccessControl.Store.Memory
import Mathlib.Order.Lattice.Nat
import Mathlib.Order.Interval.Finset.Nat
/-!
# The nearest roles come first

The search for all roles of a name takes a name from the front of a queue and puts its new roles at the end.
The name and the roles found are, in this order, the names taken so far and the names that wait.  They stand
by their distance, and none is more than one step further than the first that waits; so whatever was not found
yet is further than that one, and its roles are exactly one step further.

    a turn of the search keeps the names by their distance              (`ByDistance.turn`)
    the search ends with no name waiting                                (`turns_inherited`)
    a role is at most as many steps away as there are nodes             (`WellFormed.distance_le_nodes`)
-/

namespace AccessControl

namespace RoleManager

/-! ## The search, turn by turn -/

/-- The names that wait, and the roles found so far. -/
structure Search where
  queue : List String
  seen : List String

/-- A role that comes up is found unless it is the name itself or was found before, and waits then. -/
def Search.meet (name : String) (s : Search) (role : String) : Search :=
  if role ≠ name ∧ role ∉ s.seen then ⟨s.queue ++ [role], s.seen ++ [role]⟩ else s

/-- One turn of the search: all direct roles of the first name that waits come up. -/
inductive Turn (m : RoleManager) (name : String) (domain : Option String) : Search → Search → Prop where
  | take (current : String) (queue seen : List String) :
    Turn m name domain ⟨current :: queue, seen⟩ ((m.roles current domain).foldl (Search.meet name) ⟨queue, seen⟩)

variable {m : RoleManager} {name : String} {domain : Option String}

/-- The roles that come up are found when they are new; `known` are the roles not to be found again. -/
theorem foldl_meet (roles : List String) {queue seen known : List String}
    (hknown : ∀ role, role ≠ name → (role ∈ known ↔ role ∈ seen)) :
    roles.foldl (Search.meet name) ⟨queue, seen⟩ =
      ⟨queue ++ (unseen known roles).filter (· != name), seen ++ (unseen known roles).filter (· != name)⟩ := by
  induction roles generalizing queue seen known with
  | nil => simp [unseen]
  | cons role rest ih =>
    rw [List.foldl_cons, unseen, Search.meet]
    by_cases hname : role = name
    · subst hname
      have hmore : ∀ other, other ≠ role → (other ∈ role :: known ↔ other ∈ seen) := by
        intro other hother
        rw [List.mem_cons, or_iff_right hother, hknown other hother]
      rw [if_neg (by simp)]
      split
      · exact ih hknown
      · rw [List.filter_cons_of_neg (by simp)]
        exact ih hmore
    · by_cases hseen : role ∈ seen
      · rw [if_neg (by simp [hseen]), if_pos ((hknown role hname).2 hseen)]
        exact ih hknown
      · have hmore : ∀ other, other ≠ name → (other ∈ role :: known ↔ other ∈ seen ++ [role]) := by
          intro other hother
          rw [List.mem_cons, hknown other hother, List.mem_append, List.mem_singleton, or_comm]
        rw [if_pos ⟨hname, hseen⟩, if_neg (mt (hknown role hname).1 hseen),
          List.filter_cons_of_pos (by simpa using hname), ih hmore]
        simp

/-- A turn puts the new roles of the first name at the end. -/
theorem turn_iff {current : String} {queue seen : List String} {next : Search} :
    m.Turn name domain ⟨current :: queue, seen⟩ next ↔
      next = ⟨queue ++ m.newRoles name domain seen current, seen ++ m.newRoles name domain seen current⟩ := by
  have hfold : (m.roles current domain).foldl (Search.meet name) ⟨queue, seen⟩ =
      ⟨queue ++ m.newRoles name domain seen current, seen ++ m.newRoles name domain seen current⟩ :=
    foldl_meet _ fun _ _ => Iff.rfl
  constructor
  · rintro ⟨⟩
    exact hfold
  · rintro rfl
    rw [← hfold]
    exact .take current queue seen

/-- Within its bound the search takes turns until no name waits. -/
theorem turns_inheritedFrom {fuel : Nat} {queue seen : List String}
    (hfuel : queue.length + (m.unseenRoles seen).card ≤ fuel) :
    Relation.ReflTransGen (m.Turn name domain) ⟨queue, seen⟩
      ⟨[], seen ++ m.inheritedFrom name domain fuel queue seen⟩ := by
  induction fuel generalizing queue seen with
  | zero =>
    obtain rfl : queue = [] := List.eq_nil_of_length_eq_zero (by omega)
    rw [inheritedFrom, List.append_nil]
  | succ fuel ih =>
    cases queue with
    | nil => rw [inheritedFrom, List.append_nil]
    | cons current queue =>
      have hcard : (m.unseenRoles (seen ++ m.newRoles name domain seen current)).card +
          (m.newRoles name domain seen current).length = (m.unseenRoles seen).card :=
        card_unseenRoles seen current
      have hbound : (queue ++ m.newRoles name domain seen current).length +
          (m.unseenRoles (seen ++ m.newRoles name domain seen current)).card ≤ fuel := by
        rw [List.length_cons] at hfuel
        rw [List.length_append]
        omega
      have hrest := ih hbound
      rw [List.append_assoc] at hrest
      rw [inheritedFrom_cons]
      exact .head (turn_iff.2 rfl) hrest

theorem turns_inherited (m : RoleManager) (name : String) (domain : Option String) :
    Relation.ReflTransGen (m.Turn name domain) ⟨[name], []⟩ ⟨[], m.inherited name domain⟩ :=
  turns_inheritedFrom (m.bound_inherited name)

/-! ## Distances -/

/-- A number of steps from a name to a role of it, each to a direct role. -/
inductive StepsTo (m : RoleManager) (domain : Option String) (name : String) : Nat → String → Prop where
  | none : StepsTo m domain name 0 name
  | step {k : Nat} {current role : String} (hsteps : StepsTo m domain name k current)
    (hrole : role ∈ m.roles current domain) : StepsTo m domain name (k + 1) role

/-- The least number of steps from a name to a role. -/
noncomputable def distance (m : RoleManager) (domain : Option String) (name role : String) : Nat :=
  sInf {k | m.StepsTo domain name k role}

theorem StepsTo.distance_le {k : Nat} {role : String} (h : m.StepsTo domain name k role) :
    m.distance domain name role ≤ k := Nat.sInf_le h

theorem StepsTo.distance {k : Nat} {role : String} (h : m.StepsTo domain name k role) :
    m.StepsTo domain name (m.distance domain name role) role := by
  have hleast : sInf {k | m.StepsTo domain name k role} ∈ {k | m.StepsTo domain name k role} :=
    Nat.sInf_mem ⟨k, h⟩
  exact hleast

/-- Roles are the names some steps away. -/
theorem exists_stepsTo_of_transGen {role : String}
    (h : Relation.TransGen (fun current role => role ∈ m.roles current domain) name role) :
    ∃ k, m.StepsTo domain name k role := by
  induction h with
  | single hrole => exact ⟨1, .step .none hrole⟩
  | tail _ hrole ih =>
    obtain ⟨k, hsteps⟩ := ih
    exact ⟨k + 1, hsteps.step hrole⟩

/-- On the way to a role there is one at every distance. -/
theorem StepsTo.exists_distance {k : Nat} {role : String} (h : m.StepsTo domain name k role)
    (hleast : m.distance domain name role = k) {j : Nat} (hj : j ≤ k) :
    ∃ between, m.StepsTo domain name j between ∧ m.distance domain name between = j := by
  induction h with
  | none =>
    obtain rfl : j = 0 := by omega
    exact ⟨name, .none, hleast⟩
  | @step k current role hsteps hrole ih =>
    rcases Nat.eq_or_lt_of_le hj with rfl | hlt
    · exact ⟨role, hsteps.step hrole, hleast⟩
    · have hle := hsteps.distance_le
      have hnext := (hsteps.distance.step hrole).distance_le
      exact ih (by omega) (by omega)

/-! ## By distance -/

/-- The names of a search by their distance: those taken, and behind them those that wait. -/
structure ByDistance (m : RoleManager) (name : String) (domain : Option String) (taken : List String)
    (s : Search) : Prop where
  order : name :: s.seen = taken ++ s.queue
  closed : ∀ current ∈ taken, ∀ role ∈ m.roles current domain, role ∈ name :: s.seen
  reached : ∀ role ∈ name :: s.seen, ∃ k, m.StepsTo domain name k role
  sorted : (name :: s.seen).Pairwise fun first second =>
    m.distance domain name first ≤ m.distance domain name second
  near : ∀ first ∈ s.queue.head?, ∀ role ∈ name :: s.seen,
    m.distance domain name role ≤ m.distance domain name first + 1

theorem byDistance_start (m : RoleManager) (name : String) (domain : Option String) :
    m.ByDistance name domain [] ⟨[name], []⟩ where
  order := rfl
  closed := by simp
  reached role hrole := by
    rw [List.mem_singleton.1 hrole]
    exact ⟨0, .none⟩
  sorted := List.pairwise_singleton _ _
  near first hfirst role hrole := by
    obtain rfl : name = first := by simpa using hfirst
    rw [List.mem_singleton.1 hrole]
    exact Nat.le_succ _

namespace ByDistance

variable {taken queue seen : List String} {current : String}

/-- The first name that waits is no further than those behind it. -/
theorem distance_le (h : m.ByDistance name domain taken ⟨current :: queue, seen⟩) {role : String}
    (hrole : role ∈ queue) : m.distance domain name current ≤ m.distance domain name role := by
  have hsorted := h.sorted
  rw [h.order, List.pairwise_append] at hsorted
  exact (List.pairwise_cons.1 hsorted.2.1).1 role hrole

/-- What was not found is further than the first name that waits: on the way to it there is a name that
was found and not taken yet, and the next one was not found. -/
theorem distance_lt (h : m.ByDistance name domain taken ⟨current :: queue, seen⟩) {k : Nat} {role : String}
    (hsteps : m.StepsTo domain name k role) (hnew : role ∉ name :: seen) :
    m.distance domain name current < k := by
  induction hsteps with
  | none => exact absurd List.mem_cons_self hnew
  | @step k before role hsteps hrole ih =>
    -- a name that was taken has all its roles found, so the one before either waits or was not found
    by_cases hbefore : before ∈ name :: seen
    · have hplace : before ∈ taken ++ current :: queue := h.order ▸ hbefore
      rcases List.mem_append.1 hplace with htaken | hwaits
      · exact absurd (h.closed before htaken role hrole) hnew
      · have hle : m.distance domain name current ≤ m.distance domain name before := by
          rcases List.mem_cons.1 hwaits with rfl | hbehind
          · exact Nat.le_refl _
          · exact h.distance_le hbehind
        have hk := hsteps.distance_le
        omega
    · have hlt := ih hbefore
      omega

/-- A new role of the first name that waits is one step further than that name. -/
theorem distance_newRole (h : m.ByDistance name domain taken ⟨current :: queue, seen⟩) {role : String}
    (hrole : role ∈ m.newRoles name domain seen current) :
    (∃ k, m.StepsTo domain name k role) ∧
      m.distance domain name role = m.distance domain name current + 1 := by
  obtain ⟨hdirect, hseen, hname⟩ := (mem_newRoles seen current role).1 hrole
  have hcurrent : current ∈ name :: seen := by
    rw [h.order]
    exact List.mem_append_right _ List.mem_cons_self
  obtain ⟨k, hsteps⟩ := h.reached current hcurrent
  have hnext := hsteps.distance.step hdirect
  have hnew : role ∉ name :: seen := by
    rw [List.mem_cons, not_or]
    exact ⟨hname, hseen⟩
  have hlt := h.distance_lt hnext.distance hnew
  have hle := hnext.distance_le
  exact ⟨⟨_, hnext⟩, by omega⟩

/-- A turn of the search keeps the names by their distance. -/
theorem turn (h : m.ByDistance name domain taken ⟨current :: queue, seen⟩) :
    m.ByDistance name domain (taken ++ [current])
      ⟨queue ++ m.newRoles name domain seen current, seen ++ m.newRoles name domain seen current⟩ where
  order := by
    have horder : name :: seen = taken ++ current :: queue := h.order
    rw [← List.cons_append, horder]
    simp
  closed before hbefore role hrole := by
    rw [← List.cons_append, List.mem_append]
    rcases List.mem_append.1 hbefore with htaken | hcurrent
    · exact Or.inl (h.closed before htaken role hrole)
    · rw [List.mem_singleton.1 hcurrent] at hrole
      by_cases hseen : role ∈ name :: seen
      · exact Or.inl hseen
      · rw [List.mem_cons, not_or] at hseen
        exact Or.inr ((mem_newRoles seen current role).2 ⟨hrole, hseen.2, hseen.1⟩)
  reached role hrole := by
    rw [← List.cons_append, List.mem_append] at hrole
    rcases hrole with hold | hnew
    · exact h.reached role hold
    · exact (h.distance_newRole hnew).1
  sorted := by
    rw [← List.cons_append, List.pairwise_append]
    refine ⟨h.sorted, ?_, ?_⟩
    · refine List.Pairwise.imp_of_mem ?_ (nodup_newRoles seen current)
      intro first second hfirst hsecond _
      rw [(h.distance_newRole hfirst).2, (h.distance_newRole hsecond).2]
    · intro first hfirst second hsecond
      rw [(h.distance_newRole hsecond).2]
      exact h.near current rfl first hfirst
  near first hfirst role hrole := by
    have hlater : m.distance domain name current ≤ m.distance domain name first := by
      rcases List.mem_append.1 (List.mem_of_mem_head? hfirst) with hwaits | hnew
      · exact h.distance_le hwaits
      · rw [(h.distance_newRole hnew).2]
        exact Nat.le_succ _
    have hnear : m.distance domain name role ≤ m.distance domain name current + 1 := by
      rw [← List.cons_append, List.mem_append] at hrole
      rcases hrole with hold | hnew
      · exact h.near current rfl role hold
      · exact Nat.le_of_eq (h.distance_newRole hnew).2
    omega

/-- Any number of turns keeps the names by their distance. -/
theorem turns {s next : Search} (h : m.ByDistance name domain taken s)
    (hturns : Relation.ReflTransGen (m.Turn name domain) s next) :
    ∃ taken, m.ByDistance name domain taken next := by
  induction hturns with
  | refl => exact ⟨taken, h⟩
  | tail _ hturn ih =>
    obtain ⟨taken, hbefore⟩ := ih
    cases hturn with
    | take current queue seen =>
      rw [turn_iff.1 (.take current queue seen)]
      exact ⟨_, hbefore.turn⟩

end ByDistance

/-- The roles of a name come by their distance from it. -/
theorem pairwise_inherited (m : RoleManager) (name : String) (domain : Option String) :
    (m.inherited name domain).Pairwise fun first second =>
      m.distance domain name first ≤ m.distance domain name second := by
  obtain ⟨taken, h⟩ := (byDistance_start m name domain).turns (turns_inherited m name domain)
  exact (List.pairwise_cons.1 h.sorted).2

/-! ## As far as a query goes -/

/-- Steps to a name, and from there to a match of a role. -/
theorem WellFormed.roleAway_of_stepsTo (hm : m.WellFormed) {j k : Nat} {current role : String}
    (hsteps : m.StepsTo domain name k current) (haway : m.RoleAway domain role j current) :
    m.RoleAway domain role (k + j) name := by
  induction hsteps generalizing j with
  | none => rwa [Nat.zero_add]
  | @step k before current _ hrole ih =>
    have hbefore : m.RoleAway domain role (j + 1) before :=
      ⟨current, (hm.mem_roles before current).1 hrole, haway⟩
    rw [Nat.add_right_comm, Nat.add_assoc]
    exact ih hbefore

/-- A direct role is a node of the domain, where domains are taken as they are. -/
theorem WellFormed.mem_nodes_of_mem_roles (hm : m.WellFormed) (hdomain : m.domainMatch = none)
    {current role : String} (h : role ∈ m.roles current domain) :
    role ∈ (m.graphAt (domainKey domain)).nodes.keys := by
  obtain ⟨key, hsees, stored, -, hlink⟩ := (hm.mem_roles current role).1 h
  have hkey : key = domainKey domain := by
    unfold Sees at hsees
    rw [hdomain] at hsees
    cases domain <;> exact hsees
  subst hkey
  exact ((hm.graphs _).mem_keys hlink).2

/-- The distances up to that of a role are those of as many nodes, each another one. -/
theorem WellFormed.distance_le_nodes (hm : m.WellFormed) (hdomain : m.domainMatch = none) {k : Nat}
    {role : String} (h : m.StepsTo domain name k role) :
    m.distance domain name role ≤ (m.graphAt (domainKey domain)).nodes.length := by
  have hcover : Finset.Icc 1 (m.distance domain name role) ⊆
      (m.graphAt (domainKey domain)).nodes.keys.toFinset.image (m.distance domain name) := by
    intro j hj
    obtain ⟨hpos, hle⟩ := Finset.mem_Icc.1 hj
    obtain ⟨between, hsteps, hdistance⟩ := h.distance.exists_distance rfl hle
    refine Finset.mem_image.2 ⟨between, ?_, hdistance⟩
    rw [List.mem_toFinset]
    cases hsteps with
    | none => omega
    | step _ hrole => exact hm.mem_nodes_of_mem_roles hdomain hrole
  calc m.distance domain name role
      = (Finset.Icc 1 (m.distance domain name role)).card := by rw [Nat.card_Icc, Nat.add_sub_cancel]
    _ ≤ ((m.graphAt (domainKey domain)).nodes.keys.toFinset.image (m.distance domain name)).card :=
        Finset.card_le_card hcover
    _ ≤ (m.graphAt (domainKey domain)).nodes.keys.toFinset.card := Finset.card_image_le
    _ ≤ (m.graphAt (domainKey domain)).nodes.keys.length := List.toFinset_card_le _
    _ = (m.graphAt (domainKey domain)).nodes.length := List.length_map _

/-- A query that can follow as many links as there are nodes finds all roles, where names and domains are
taken as they are. -/
theorem WellFormed.mem_inherited_iff_hasLink (hm : m.WellFormed) (hname : m.nameMatch = none)
    (hdomain : m.domainMatch = none)
    (hlevel : (m.graphAt (domainKey domain)).nodes.length ≤ m.maxLevel) (role : String) :
    role ∈ m.inherited name domain ↔ role ≠ name ∧ m.hasLink name role domain = true := by
  have hstep : (fun current role => role ∈ m.roles current domain) = m.DirectRole domain := by
    funext current role
    exact propext (hm.mem_roles current role)
  constructor
  · intro hrole
    obtain ⟨hne, hchain⟩ := (hm.mem_inherited name role).1 hrole
    obtain ⟨k, hsteps⟩ := exists_stepsTo_of_transGen (hstep ▸ hchain)
    have hbound := hm.distance_le_nodes hdomain hsteps
    have hmatch : m.RoleAway domain role 0 role := Or.inl rfl
    have haway : m.RoleAway domain role (m.distance domain name role) name :=
      hm.roleAway_of_stepsTo hsteps.distance hmatch
    have hpos : 1 ≤ m.distance domain name role := by
      rw [Nat.one_le_iff_ne_zero]
      intro hzero
      have hnone := hsteps.distance
      rw [hzero] at hnone
      cases hnone
      exact hne rfl
    exact ⟨hne, hm.hasLink_of_within (Or.inr ⟨_, hpos, by omega, haway⟩)⟩
  · rintro ⟨hne, hlink⟩
    have hwithin := (hm.hasLink_iff_within hname name role).1 hlink
    exact (hm.mem_inherited_of_within hname hwithin).resolve_left hne

end RoleManager

/-! ## Top theorem (proved from the lemmas above) -/

open RoleManager in
/-- **All roles, the nearest first.**  Whatever operations built the manager of `g`, with whatever matching
functions, the search for all roles of a name takes turns until no name waits, and gives what it found: each
role once, by their least number of direct steps, and they are the names besides the given one that one or
more direct steps lead to.  Where names and domains are taken as they are, and the level is no less than the
number of nodes of the domain, they are the other names that a query of the name holds for. -/
theorem Authorizer.implicitRoles_nearest {α : Type} [Authorizer α] {a : α} {level : Nat}
    {operations : List Operation} (hm : manager a "g" = .ok (run { maxLevel := level } operations))
    (name : String) (domain : Option String) :
    let m := run { maxLevel := level } operations
    ∃ roles, implicitRoles a name domain = .ok roles ∧
      Relation.ReflTransGen (m.Turn name domain) ⟨[name], []⟩ ⟨[], roles⟩ ∧
      roles.Nodup ∧
      (roles.Pairwise fun first second =>
        m.distance domain name first ≤ m.distance domain name second) ∧
      (∀ role, role ∈ roles ↔ role ≠ name ∧
        Relation.TransGen (fun current next => next ∈ m.roles current domain) name role) ∧
      (m.nameMatch = none → m.domainMatch = none →
        (m.graphAt (domainKey domain)).nodes.length ≤ m.maxLevel →
          ∀ role, role ∈ roles ↔ role ≠ name ∧ m.hasLink name role domain = true) := by
  intro m
  have hwell : m.WellFormed := wellFormed_run (wellFormed_new level) operations
  refine ⟨m.inherited name domain, ?_, turns_inherited m name domain, nodup_inherited m name domain,
    pairwise_inherited m name domain, ?_, ?_⟩
  · rw [implicitRoles, hm]
    rfl
  · intro role
    have hstep : (fun current next => next ∈ m.roles current domain) = m.DirectRole domain := by
      funext current next
      exact propext (hwell.mem_roles current next)
    rw [hstep]
    exact hwell.mem_inherited name role
  · intro hname hdomain hlevel role
    exact hwell.mem_inherited_iff_hasLink hname hdomain hlevel role

open RoleManager in
/-- A role over two links, behind one that was given later, and a cycle back to the user. -/
theorem Authorizer.implicitRoles_nearest_cycle :
    let m := run { maxLevel := 4 } [.addLink "ann" "staff" none, .addLink "staff" "admin" none,
      .addLink "admin" "ann" none, .addLink "ann" "guest" none]
    let e : Enforcer MemoryStore := { model := {}, store := {}, managers := [("g", m)] }
    implicitRoles e "ann" none = .ok ["staff", "guest", "admin"] ∧
      ∀ role, role ∈ ["staff", "guest", "admin"] ↔ role ≠ "ann" ∧ m.hasLink "ann" role none = true := by
  intro m e
  have hroles : implicitRoles e "ann" none = .ok ["staff", "guest", "admin"] := by rfl
  obtain ⟨roles, heq, -, -, -, -, hlinks⟩ := @implicitRoles_nearest _ _ e 4 _ rfl "ann" none
  obtain rfl := Except.ok.inj (hroles.symm.trans heq)
  exact ⟨hroles, hlinks rfl rfl (by decide)⟩

end AccessControl
