import AccessControl.Proofs.Roles.LinkLists
import Mathlib.Data.List.Chain
/-!
# Shortest chains of links

The search for a chain takes the nodes by the lengths of their chains.  No chain that waits is longer than
the one in front by more than one link, and what follows a node that was taken was found over no more than
one link more; so on every chain to the goal there is a node that waits and was reached as early as on that
chain.  When the goal is taken, its own chain is no longer than that one.

    a turn keeps the chains by their lengths                           (`Fronts.step`)
    g.path? start goal = some chain → chain is a shortest one          (`shortest_of_path?`)
    a.path start goal = none ↔ no links lead from start to goal        (`Valid.path_eq_none_iff`)
    a refused link and the chain back to its name are a shortest cycle (`shortest_of_insertLink`)
-/

namespace AccessControl

open Relation

/-! ## Chains -/

/-- A chain of links from one end to the other, both included. -/
structure LinkChain {α : Type} (r : α → α → Prop) (first last : α) (chain : List α) : Prop where
  head_eq : chain.head? = some first
  last_eq : chain.getLast? = some last
  links : chain.IsChain r

/-- A chain such that no other one between its ends is shorter. -/
structure ShortestChain {α : Type} (r : α → α → Prop) (first last : α) (chain : List α) : Prop
    extends LinkChain r first last chain where
  shortest : ∀ other, LinkChain r first last other → chain.length ≤ other.length

section

variable {α : Type} {r s : α → α → Prop} {first last : α} {chain : List α}

theorem linkChain_singleton (r : α → α → Prop) (first : α) : LinkChain r first first [first] :=
  ⟨rfl, rfl, .singleton _⟩

theorem LinkChain.concat (h : LinkChain r first last chain) {next : α} (hr : r last next) :
    LinkChain r first next (chain ++ [next]) where
  head_eq := by
    rw [List.head?_append, h.head_eq]
    rfl
  last_eq := List.getLast?_concat
  links := by
    refine h.links.append (.singleton _) fun x hx y hy => ?_
    obtain rfl := Option.some.inj (h.last_eq.symm.trans hx)
    obtain rfl := Option.some.inj (hy : some next = some y)
    exact hr

/-- A chain is one node, or a chain with one link behind it. -/
theorem LinkChain.induction {P : α → List α → Prop} (single : P first [first])
    (concat : ∀ before last chain, LinkChain r first before chain → P before chain → r before last →
      P last (chain ++ [last])) (h : LinkChain r first last chain) : P last chain := by
  induction chain using List.reverseRecOn generalizing last with
  | nil => simpa using h.head_eq
  | append_singleton front x ih =>
    obtain rfl : x = last := by simpa using h.last_eq
    rcases List.eq_nil_or_concat' front with rfl | ⟨more, before, rfl⟩
    · obtain rfl : x = first := by simpa using h.head_eq
      exact single
    · have hlinks := List.isChain_append.1 h.links
      have hfront : LinkChain r first before (more ++ [before]) := by
        refine ⟨?_, List.getLast?_concat, hlinks.1⟩
        rw [← h.head_eq]
        cases more <;> rfl
      exact concat before x _ hfront (ih hfront) (hlinks.2.2 before (by simp) x rfl)

theorem LinkChain.reaches (h : LinkChain r first last chain) : ReflTransGen r first last := by
  refine h.induction (P := fun last _ => ReflTransGen r first last) .refl ?_
  intro before last chain _ ih hr
  exact ih.tail hr

theorem LinkChain.map {β : Type} {t : β → β → Prop} (h : LinkChain r first last chain) (f : α → β)
    (hf : ∀ x y, r x y → t (f x) (f y)) : LinkChain t (f first) (f last) (chain.map f) where
  head_eq := by rw [List.head?_map, h.head_eq]; rfl
  last_eq := by rw [List.getLast?_map, h.last_eq]; rfl
  links := List.isChain_map_of_isChain f hf h.links

/-- A shortest chain comes to its end once, so no link in it starts there. -/
theorem ShortestChain.before_last (h : ShortestChain r first last chain) :
    chain.IsChain fun x y => r x y ∧ x ≠ last := by
  rw [List.isChain_iff_forall_rel_of_append_cons_cons]
  intro x y front rest heq
  refine ⟨List.isChain_iff_forall_rel_of_append_cons_cons.1 h.links heq, ?_⟩
  rintro rfl
  have hlinks := h.links
  rw [heq, List.append_cons, List.isChain_append] at hlinks
  have hcut : LinkChain r first x (front ++ [x]) := by
    refine ⟨?_, List.getLast?_concat, hlinks.1⟩
    rw [← h.head_eq, heq]
    cases front <;> rfl
  have hle := h.shortest _ hcut
  rw [heq] at hle
  simp only [List.length_append, List.length_cons, List.length_nil] at hle
  omega

end

/-! ## The search over names -/

namespace LinkGraph

variable {g : LinkGraph} {start goal : String}

/-- The chains of a search, each with its last name first: those taken, and behind them those that wait. -/
structure Fronts (g : LinkGraph) (start goal : String) (taken queue : List (List String))
    (seen : List String) : Prop where
  chains : ∀ q ∈ taken ++ queue, ∃ last, q.head? = some last ∧ LinkChain g.Edge start last q.reverse
  start : [start] ∈ taken ++ queue
  seen : ∀ name ∈ seen, ∃ q ∈ taken ++ queue, q.head? = some name
  closed : ∀ q ∈ taken, ∀ last, q.head? = some last → last ≠ goal ∧ ∀ role, g.Edge last role →
    ∃ p ∈ taken ++ queue, p.head? = some role ∧ p.length ≤ q.length + 1
  sorted : (taken ++ queue).Pairwise fun p q => p.length ≤ q.length
  near : ∀ q ∈ queue.head?, ∀ p ∈ taken ++ queue, p.length ≤ q.length + 1

theorem fronts_start (g : LinkGraph) (start goal : String) : g.Fronts start goal [] [[start]] [start] where
  chains q hq := by
    rw [List.mem_singleton.1 hq]
    exact ⟨start, rfl, linkChain_singleton _ _⟩
  start := List.mem_singleton.2 rfl
  seen name hname := ⟨[start], List.mem_singleton.2 rfl, by rw [List.mem_singleton.1 hname]; rfl⟩
  closed := by simp
  sorted := List.pairwise_singleton _ _
  near q hq p hp := by
    obtain rfl : [start] = q := by simpa using hq
    rw [List.mem_singleton.1 hp]
    exact Nat.le_succ _

namespace Fronts

variable {taken queue : List (List String)} {seen : List String}

/-- On every chain to the goal there is a name that waits and was reached as early as there. -/
theorem exists_waiting (h : g.Fronts start goal taken queue seen) {other : List String}
    (hother : LinkChain g.Edge start goal other) : ∃ q ∈ queue, q.length ≤ other.length := by
  -- along the chain, as long as all names on it were taken
  have hall : ∀ last chain, LinkChain g.Edge start last chain →
      (∃ q ∈ taken, q.head? = some last ∧ q.length ≤ chain.length) ∨ ∃ q ∈ queue, q.length ≤ chain.length := by
    intro last chain hchain
    refine hchain.induction
      (P := fun last chain => (∃ q ∈ taken, q.head? = some last ∧ q.length ≤ chain.length) ∨
        ∃ q ∈ queue, q.length ≤ chain.length) ?_ ?_
    · rcases List.mem_append.1 h.start with htaken | hwaits
      · exact Or.inl ⟨_, htaken, rfl, Nat.le_refl _⟩
      · exact Or.inr ⟨_, hwaits, Nat.le_refl _⟩
    · intro before last chain _ ih hlink
      rw [List.length_append, List.length_singleton]
      rcases ih with ⟨q, hq, hhead, hle⟩ | ⟨q, hq, hle⟩
      · obtain ⟨p, hp, hrole, hlength⟩ := (h.closed q hq before hhead).2 last hlink
        rcases List.mem_append.1 hp with htaken | hwaits
        · exact Or.inl ⟨p, htaken, hrole, by omega⟩
        · exact Or.inr ⟨p, hwaits, by omega⟩
      · exact Or.inr ⟨q, hq, by omega⟩
  rcases hall goal other hother with ⟨q, hq, hhead, -⟩ | hwaits
  · exact absurd rfl (h.closed q hq goal hhead).1
  · exact hwaits

/-- The first chain that waits is the shortest of them. -/
theorem first_le {first : List String} (h : g.Fronts start goal taken (first :: queue) seen) {q : List String}
    (hq : q ∈ first :: queue) : first.length ≤ q.length := by
  have hsorted := (List.pairwise_append.1 h.sorted).2.1
  rcases List.mem_cons.1 hq with rfl | hbehind
  · exact Nat.le_refl _
  · exact (List.pairwise_cons.1 hsorted).1 q hbehind

/-- When the goal is taken, its chain is a shortest one. -/
theorem shortest {before : List String} (h : g.Fronts start goal taken ((goal :: before) :: queue) seen) :
    ShortestChain g.Edge start goal (goal :: before).reverse := by
  obtain ⟨last, hlast, hchain⟩ := h.chains (goal :: before) (List.mem_append_right _ List.mem_cons_self)
  obtain rfl := Option.some.inj (hlast : some goal = some last)
  refine ⟨hchain, fun other hother => ?_⟩
  obtain ⟨q, hq, hle⟩ := h.exists_waiting hother
  rw [List.length_reverse]
  exact Nat.le_trans (h.first_le hq) hle

/-- A turn of the search: another name than the goal is taken, and its new roles wait at the end. -/
theorem step {current : String} {before : List String}
    (h : g.Fronts start goal taken ((current :: before) :: queue) seen) (hne : current ≠ goal) :
    let next := (g.rolesOf current).filter fun role => !seen.contains role
    g.Fronts start goal (taken ++ [current :: before]) (queue ++ next.map fun role => role :: current :: before)
      (seen ++ next) := by
  intro next
  have hall : taken ++ [current :: before] ++ (queue ++ next.map fun role => role :: current :: before) =
      (taken ++ (current :: before) :: queue) ++ next.map fun role => role :: current :: before := by simp
  have hcurrent : current :: before ∈ taken ++ (current :: before) :: queue :=
    List.mem_append_right _ List.mem_cons_self
  have hnear : ∀ p ∈ taken ++ (current :: before) :: queue, p.length ≤ (current :: before).length + 1 :=
    h.near _ rfl
  have hnew : ∀ p ∈ next.map fun role => role :: current :: before,
      ∃ role, g.Edge current role ∧ p = role :: current :: before := by
    intro p hp
    obtain ⟨role, hrole, rfl⟩ := List.mem_map.1 hp
    exact ⟨role, List.mem_of_mem_filter hrole, rfl⟩
  constructor
  · rw [hall, List.forall_mem_append]
    refine ⟨h.chains, fun p hp => ?_⟩
    obtain ⟨role, hedge, rfl⟩ := hnew p hp
    obtain ⟨last, hlast, hchain⟩ := h.chains _ hcurrent
    obtain rfl := Option.some.inj (hlast : some current = some last)
    exact ⟨role, rfl, by rw [List.reverse_cons]; exact hchain.concat hedge⟩
  · rw [hall]
    exact List.mem_append_left _ h.start
  · rw [hall, List.forall_mem_append]
    constructor
    · intro name hname
      obtain ⟨q, hq, hhead⟩ := h.seen name hname
      exact ⟨q, List.mem_append_left _ hq, hhead⟩
    · intro role hrole
      exact ⟨_, List.mem_append_right _ (List.mem_map_of_mem hrole), rfl⟩
  · rw [hall, List.forall_mem_append]
    constructor
    · intro q hq last hlast
      obtain ⟨hgoal, hroles⟩ := h.closed q hq last hlast
      refine ⟨hgoal, fun role hedge => ?_⟩
      obtain ⟨p, hp, hrest⟩ := hroles role hedge
      exact ⟨p, List.mem_append_left _ hp, hrest⟩
    · intro q hq last hlast
      obtain rfl := List.mem_singleton.1 hq
      obtain rfl := Option.some.inj (hlast : some current = some last)
      refine ⟨hne, fun role hedge => ?_⟩
      -- a role seen before has a chain, and none is longer by more than one link
      by_cases hseen : role ∈ seen
      · obtain ⟨p, hp, hhead⟩ := h.seen role hseen
        exact ⟨p, List.mem_append_left _ hp, hhead, hnear p hp⟩
      · have hrole : role ∈ next := List.mem_filter.2 ⟨hedge, by simpa using hseen⟩
        exact ⟨_, List.mem_append_right _ (List.mem_map_of_mem hrole), rfl, Nat.le_refl _⟩
  · rw [hall, List.pairwise_append]
    refine ⟨h.sorted, ?_, ?_⟩
    · rw [List.pairwise_map]
      exact List.pairwise_of_forall fun _ _ => Nat.le_refl _
    · intro p hp q hq
      obtain ⟨role, -, rfl⟩ := hnew q hq
      exact hnear p hp
  · intro q hq p hp
    have hmem := List.mem_of_mem_head? hq
    have hlater : (current :: before).length ≤ q.length := by
      rcases List.mem_append.1 hmem with hwaits | hq
      · exact h.first_le (List.mem_cons_of_mem _ hwaits)
      · obtain ⟨role, -, rfl⟩ := hnew q hq
        exact Nat.le_succ _
    rw [hall] at hp
    rcases List.mem_append.1 hp with hold | hp
    · have := hnear p hold
      omega
    · obtain ⟨role, -, rfl⟩ := hnew p hp
      rw [List.length_cons]
      omega

end Fronts

theorem shortest_of_pathFrom {fuel : Nat} {queue : List (List String)} {seen chain : List String}
    (hfronts : ∃ taken, g.Fronts start goal taken queue seen)
    (h : g.pathFrom goal fuel queue seen = some chain) : ShortestChain g.Edge start goal chain := by
  fun_induction pathFrom g goal fuel queue seen with
  | case1 => simp at h
  | case2 => simp at h
  | case3 fuel queue seen ih =>
    obtain ⟨taken, hfronts⟩ := hfronts
    obtain ⟨last, hlast, -⟩ := hfronts.chains [] (List.mem_append_right _ List.mem_cons_self)
    simp at hlast
  | case4 fuel before queue seen =>
    obtain ⟨taken, hfronts⟩ := hfronts
    rw [← Option.some.inj h]
    exact hfronts.shortest
  | case5 fuel current before queue seen hne next ih =>
    obtain ⟨taken, hfronts⟩ := hfronts
    exact ih ⟨_, hfronts.step hne⟩ h

/-- A chain that is found is a shortest one. -/
theorem shortest_of_path? {chain : List String} (h : g.path? start goal = some chain) :
    ShortestChain g.Edge start goal chain := shortest_of_pathFrom ⟨[], fronts_start g start goal⟩ h

end LinkGraph

/-! ## The search over ids -/

namespace Arena

/-- A stored link between two ids. -/
def Edge (a : Arena) (source target : Nat) : Prop := ∃ n, a.node? source = some n ∧ target ∈ n.roles

variable {a : Arena} {start goal : Nat}

theorem Edge.source_lt {i j : Nat} (h : a.Edge i j) : i < a.nodes.length := by
  obtain ⟨n, hn, -⟩ := h
  obtain ⟨e, he, -⟩ := Option.map_eq_some_iff.1 hn
  exact (List.getElem?_eq_some_iff.1 he).1

theorem Valid.target_lt (ha : a.Valid) {i j : Nat} (h : a.Edge i j) : j < a.nodes.length := by
  obtain ⟨n, hn, hj⟩ := h
  obtain ⟨e, he, rfl⟩ := Option.map_eq_some_iff.1 hn
  exact ha.ids e (List.mem_of_getElem? he) j (List.mem_append_left _ hj)

/-- A link by ids is one by names. -/
theorem Valid.edge_view (ha : a.Valid) {i j : Nat} (h : a.Edge i j) : a.view.Edge (a.name i) (a.name j) := by
  obtain ⟨n, hn, hj⟩ := h
  obtain ⟨e, he, rfl⟩ := Option.map_eq_some_iff.1 hn
  rw [LinkGraph.Edge, ha.rolesOf_view he]
  exact List.mem_map_of_mem hj

/-- What is reached over links is the start itself, or both are nodes. -/
theorem Valid.lt_of_reaches (ha : a.Valid) (h : ReflTransGen a.Edge start goal) :
    start = goal ∨ start < a.nodes.length ∧ goal < a.nodes.length := by
  rcases h.cases_head with heq | ⟨first, hfirst, -⟩
  · exact Or.inl heq
  · rcases h.cases_tail with heq | ⟨last, -, hlast⟩
    · exact Or.inl heq.symm
    · exact Or.inr ⟨hfirst.source_lt, ha.target_lt hlast⟩

/-! ### The way back -/

/-- The way back to the start goes over links when the map keeps links. -/
theorem linkChain_of_wayBack {parents : List (Nat × Nat)} {fuel current : Nat} {rest chain : List Nat}
    (hparents : ∀ p ∈ parents, p.1 = start ∨ a.Edge p.2 p.1)
    (hrest : LinkChain a.Edge current goal (current :: rest))
    (h : wayBack parents start fuel current rest = some chain) : LinkChain a.Edge start goal chain := by
  fun_induction wayBack parents start fuel current rest with
  | case1 => simp at h
  | case2 => exact Option.some.inj h ▸ hrest
  | case3 fuel current rest hne before hbefore ih =>
    obtain ⟨front, back, heq, -⟩ := List.lookup_eq_some_iff.1 hbefore
    have hmem : (current, before) ∈ parents := by simp [heq]
    have hedge := (hparents _ hmem).resolve_left hne
    exact ih ⟨rfl, by rw [List.getLast?_cons_cons, hrest.last_eq], .cons_cons hedge hrest.links⟩ h
  | case4 => simp at h

theorem linkChain_of_pathFrom {fuel : Nat} {queue : List Nat} {parents : List (Nat × Nat)} {chain : List Nat}
    (hparents : ∀ p ∈ parents, p.1 = start ∨ a.Edge p.2 p.1)
    (h : a.pathFrom start goal fuel queue parents = some chain) : LinkChain a.Edge start goal chain := by
  fun_induction pathFrom a start goal fuel queue parents with
  | case1 => simp at h
  | case2 => simp at h
  | case3 => exact linkChain_of_wayBack hparents (linkChain_singleton _ _) h
  | case4 => simp at h
  | case5 fuel current queue parents hne n hn next ih =>
    refine ih (List.forall_mem_append.2 ⟨hparents, fun p hp => ?_⟩) h
    obtain ⟨id, hid, rfl⟩ := List.mem_map.1 hp
    exact Or.inr ⟨n, hn, List.mem_of_mem_filter hid⟩

theorem linkChain_of_path {chain : List Nat} (h : a.path start goal = some chain) :
    LinkChain a.Edge start goal chain := linkChain_of_pathFrom (by simp) h

theorem path_self (a : Arena) (start : Nat) : a.path start start = some [start] := by
  simp [path, pathFrom, wayBack]

/-- **A chain that is found is a shortest one.** -/
theorem Valid.shortest_of_path (ha : a.Valid) {chain : List Nat} (h : a.path start goal = some chain) :
    ShortestChain a.Edge start goal chain := by
  have hchain := linkChain_of_path h
  refine ⟨hchain, fun other hother => ?_⟩
  rcases ha.lt_of_reaches hchain.reaches with rfl | ⟨hstart, hgoal⟩
  · obtain rfl := Option.some.inj ((path_self a start).symm.trans h)
    exact List.length_pos_iff.2 fun hnil => by simpa [hnil] using hother.head_eq
  · have hnames : a.view.path? (a.name start) (a.name goal) = some (chain.map a.name) := by
      rw [← ha.map_path hstart hgoal, h]
      rfl
    have hle := (LinkGraph.shortest_of_path? hnames).shortest _ (hother.map a.name fun _ _ => ha.edge_view)
    rwa [List.length_map, List.length_map] at hle

/-- **No chain is found only where there is none.** -/
theorem Valid.path_eq_none_iff (ha : a.Valid) (hwell : a.view.WellFormed) :
    a.path start goal = none ↔ ¬ ReflTransGen a.Edge start goal := by
  constructor
  · intro hnone hreach
    rcases ha.lt_of_reaches hreach with rfl | ⟨hstart, hgoal⟩
    · rw [path_self] at hnone
      simp at hnone
    · have hnames : a.view.path? (a.name start) (a.name goal) = none := by
        rw [← ha.map_path hstart hgoal, hnone]
        rfl
      exact hwell.not_reaches_of_path? hnames (hreach.lift a.name fun _ _ => ha.edge_view)
  · intro hnot
    rw [Option.eq_none_iff_forall_ne_some]
    intro chain hchain
    exact hnot (linkChain_of_path hchain).reaches

/-! ### The search ends -/

/-- The nodes that wait, and for every node that was seen the one before it. -/
structure Search where
  queue : List Nat
  parents : List (Nat × Nat)

/-- One turn of the search: it ends with an answer, or goes on. -/
def turn (a : Arena) (start goal : Nat) (s : Search) : Option (List Nat) ⊕ Search :=
  match s.queue with
  | [] => .inl none
  | current :: queue =>
    if current = goal then .inl (wayBack s.parents start s.parents.length current [])
    else
      match a.node? current with
      | none => .inl none
      | some node =>
        let next := node.roles.filter fun id => !(s.parents.map (·.1)).contains id
        .inr ⟨queue ++ next, s.parents ++ next.map fun id => (id, current)⟩

/-- A search comes to an end with an answer. -/
inductive SearchEnds (a : Arena) (start goal : Nat) : Search → Option (List Nat) → Prop where
  | stop {s : Search} {answer : Option (List Nat)} (h : a.turn start goal s = .inl answer) :
    SearchEnds a start goal s answer
  | go {s next : Search} {answer : Option (List Nat)} (h : a.turn start goal s = .inr next)
    (hnext : SearchEnds a start goal next answer) : SearchEnds a start goal s answer

theorem pathFrom_succ (a : Arena) (start goal fuel : Nat) (s : Search) :
    a.pathFrom start goal (fuel + 1) s.queue s.parents =
      match a.turn start goal s with
      | .inl answer => answer
      | .inr next => a.pathFrom start goal fuel next.queue next.parents := by
  obtain ⟨queue, parents⟩ := s
  cases queue with
  | nil => rfl
  | cons current queue =>
    rw [pathFrom, turn]
    dsimp only
    split
    · rfl
    · cases a.node? current <;> rfl

/-- A turn goes on with another node than the goal, which is a node of the arena. -/
theorem turn_eq_inr {s next : Search} (h : a.turn start goal s = .inr next) :
    ∃ current queue n, s.queue = current :: queue ∧ current ≠ goal ∧ a.node? current = some n ∧
      next = ⟨queue ++ n.roles.filter fun id => !(s.parents.map (·.1)).contains id,
        s.parents ++ (n.roles.filter fun id => !(s.parents.map (·.1)).contains id).map
          fun id => (id, current)⟩ := by
  unfold turn at h
  split at h
  · simp at h
  · next current queue hqueue =>
    split at h
    · simp at h
    · next hne =>
      split at h
      · simp at h
      · next n hn => exact ⟨current, queue, n, hqueue, hne, hn, (Sum.inr.inj h).symm⟩

/-- The search ends before its bound: a turn takes a node that waits, and puts there what was not seen. -/
theorem Valid.ends_pathFrom (ha : a.Valid) (hwell : a.view.WellFormed) {fuel : Nat} {s : Search}
    {chains : List (List String)} {seen : List String} (h : a.Matches start s.queue s.parents chains seen)
    (hfuel : s.queue.length + (a.view.unseenNodes seen).length < fuel) :
    a.SearchEnds start goal s (a.pathFrom start goal fuel s.queue s.parents) := by
  induction fuel generalizing s chains seen with
  | zero => omega
  | succ fuel ih =>
    rw [pathFrom_succ]
    cases hturn : a.turn start goal s with
    | inl answer => exact .stop hturn
    | inr next =>
      obtain ⟨current, queue, n, hqueue, -, hn, rfl⟩ := turn_eq_inr hturn
      rw [hqueue] at h hfuel
      obtain ⟨chain, chains, -, hways, rfl⟩ := List.forall₂_cons_left_iff.1 h.ways
      obtain ⟨e, he, rfl⟩ := Option.map_eq_some_iff.1 hn
      have hstep := h.step ha fun id hid => ha.target_lt ⟨e.2, hn, hid⟩
      have hcount := hwell.length_unseenNodes_roles (a.name current) seen
      rw [ha.rolesOf_view he] at hcount
      have hlength := hstep.ways.length_eq
      have hwaiting := hways.length_eq
      refine .go hturn (ih hstep ?_)
      simp only [List.length_cons, List.length_append, List.length_map] at hfuel hlength hcount ⊢
      omega

/-- **The search ends, with the answer that is given.** -/
theorem Valid.ends_path (ha : a.Valid) (hwell : a.view.WellFormed) (start goal : Nat) :
    a.SearchEnds start goal ⟨[start], [(start, start)]⟩ (a.path start goal) := by
  by_cases hstart : start < a.nodes.length
  · have hle : (a.view.unseenNodes [a.name start]).length ≤ a.nodes.length := by
      refine (List.length_filter_le _ _).trans ?_
      rw [keys_view, Table.keys, List.length_map]
    have hmatches : a.Matches start (Search.mk [start] [(start, start)]).queue [(start, start)]
        [[a.name start]] [a.name start] := matches_start hstart
    refine ha.ends_pathFrom hwell hmatches ?_
    rw [List.length_singleton]
    omega
  · have hturn : ∃ answer, a.turn start goal ⟨[start], [(start, start)]⟩ = .inl answer := by
      have hnone : a.node? start = none := by
        rw [node?, List.getElem?_eq_none (Nat.le_of_not_lt hstart)]
        rfl
      unfold turn
      dsimp only
      rw [hnone]
      split <;> exact ⟨_, rfl⟩
    obtain ⟨answer, hanswer⟩ := hturn
    have hpath : a.path start goal = answer := by
      rw [path, pathFrom_succ a start goal _ ⟨[start], [(start, start)]⟩, hanswer]
    rw [hpath]
    exact .stop hanswer

end Arena

/-! ## Links that are refused -/

namespace RoleManager

/-- **A refused link and the chain back to its name are a shortest cycle.**  The chain back goes over links
that were held before, and with the new link there is no shorter one either. -/
theorem shortest_of_insertLink {m k : RoleManager} {name role : String} {domain : Option String}
    {err : RoleError} (hne : name ≠ role) (h : m.insertLink name role domain = (.error err, k)) :
    ∃ back, err = .cycle (name :: back) ∧ LinkChain (m.Link (domainKey domain)) role name back ∧
      ShortestChain ((m.withLink name role domain).Link (domainKey domain)) role name back := by
  have hlink : ∀ x y, (m.withLink name role domain).Link (domainKey domain) x y ↔
      ((m.graphAt (domainKey domain)).link name role).Edge x y := by
    intro x y
    rw [Link, withLink, graphAt_put, if_pos rfl]
  unfold insertLink at h
  dsimp only at h
  split at h
  · simp at h
  · split at h
    · simp at h
    · next back hback =>
      obtain ⟨herr, -⟩ := Prod.mk.inj h
      have hshortest := LinkGraph.shortest_of_path? hback
      have hrel : ((m.withLink name role domain).Link (domainKey domain)) =
          ((m.graphAt (domainKey domain)).link name role).Edge := by
        funext x y
        exact propext (hlink x y)
      refine ⟨back, (Except.error.inj herr).symm, ⟨hshortest.head_eq, hshortest.last_eq, ?_⟩,
        hrel ▸ hshortest⟩
      refine hshortest.before_last.imp fun x y hxy => ?_
      -- the new link starts at the name, and no link of the chain does
      exact ((LinkGraph.edge_link _ _ _ _ _).1 hxy.1).resolve_right fun heq => hxy.2 heq.1

end RoleManager

/-! ## Any operations -/

/-- What an operation of a manager does to the arenas; the flag is whether cycles are refused. -/
def Arenas.apply (s : Bool × Arenas) : RoleManager.Operation → Bool × Arenas
  | .addLink name role domain => (s.1, (s.2.insertLink s.1 name role domain).2)
  | .deleteLink name role domain => (s.1, s.2.deleteLink name role domain)
  | .clear => (s.1, [])
  | .rejectCycles on => (on, s.2)
  | .setNameMatch _ | .setDomainMatch _ | .setMaxLevel _ => s

/-- The arenas of a new manager after operations. -/
def Arenas.run (operations : List RoleManager.Operation) : Arenas :=
  (operations.foldl Arenas.apply (false, [])).2

namespace RoleManager

/-- The arenas are those of a manager, and refuse cycles where it does. -/
def ViewOf (m : RoleManager) (s : Bool × Arenas) : Prop :=
  m.rejectCycles = s.1 ∧ s.2.AllValid ∧ m.domains = s.2.view

theorem ViewOf.apply {m : RoleManager} {s : Bool × Arenas} (h : m.ViewOf s) (operation : Operation) :
    (m.apply operation).ViewOf (Arenas.apply s operation) := by
  obtain ⟨on, arenas⟩ := s
  obtain ⟨rfl, hvalid, hview⟩ := h
  cases operation with
  | addLink name role domain =>
    obtain ⟨hvalid, -, hview⟩ := hvalid.insertLink hview name role domain
    have hsame : (m.insertLink name role domain).2.clear = m.clear := clear_insertLink m name role domain
    exact ⟨(congrArg RoleManager.rejectCycles hsame :), hvalid, hview⟩
  | deleteLink name role domain =>
    obtain ⟨hvalid, hview⟩ := hvalid.deleteLink hview name role domain
    exact ⟨rfl, hvalid, hview⟩
  | clear => exact ⟨rfl, Arenas.allValid_empty, rfl⟩
  | rejectCycles on => exact ⟨rfl, hvalid, hview⟩
  | setNameMatch | setDomainMatch | setMaxLevel => exact ⟨rfl, hvalid, hview⟩

theorem ViewOf.run {m : RoleManager} {s : Bool × Arenas} (h : m.ViewOf s) (operations : List Operation) :
    (m.run operations).ViewOf (operations.foldl Arenas.apply s) := by
  induction operations generalizing m s with
  | nil => exact h
  | cons operation rest ih => exact ih (h.apply operation)

theorem domains_run (level : Nat) (operations : List Operation) :
    (Arenas.run operations).AllValid ∧
      (run { maxLevel := level } operations).domains = (Arenas.run operations).view :=
  have hstart : ({ maxLevel := level } : RoleManager).ViewOf (false, []) := ⟨rfl, Arenas.allValid_empty, rfl⟩
  (hstart.run operations).2

/-! ## Top theorem (proved from the lemmas above) -/

/-- **Chains of links.**  Whatever operations built a manager, its domains by ids are its domains by names.
In each of them the search from any id to any other ends with its answer; it finds no chain only where no
stored links lead from the one to the other, and otherwise a chain of stored links that no other one is
shorter than.  So when a link between two names is refused, the names that are told are the name, then the
role and on over links that were held before, back to the name; and with the new link no chain from the
role back to the name is shorter. -/
theorem path_run (level : Nat) (operations : List Operation) :
    let m := run { maxLevel := level } operations
    let arenas := Arenas.run operations
    m.domains = arenas.view ∧
    (∀ key arena, arenas.find key = some arena → ∀ start goal,
      arena.SearchEnds start goal ⟨[start], [(start, start)]⟩ (arena.path start goal) ∧
      (arena.path start goal = none ↔ ¬ ReflTransGen arena.Edge start goal) ∧
      ∀ chain, arena.path start goal = some chain → ShortestChain arena.Edge start goal chain) ∧
    (∀ name role domain, (arenas.insertLink m.rejectCycles name role domain).1 =
      (m.insertLink name role domain).1) ∧
    ∀ name role domain err, name ≠ role → (m.insertLink name role domain).1 = .error err →
      ∃ back, err = .cycle (name :: back) ∧ LinkChain (m.Link (domainKey domain)) role name back ∧
        ShortestChain ((m.withLink name role domain).Link (domainKey domain)) role name back := by
  intro m arenas
  obtain ⟨hvalid, hview⟩ : arenas.AllValid ∧ m.domains = arenas.view := domains_run level operations
  have hwell : m.WellFormed := wellFormed_run (wellFormed_new level) operations
  refine ⟨hview, ?_, ?_, ?_⟩
  · intro key arena hfound start goal
    have ha := hvalid key arena hfound
    have hgraph : arena.view.WellFormed := by
      have hkey := hwell.graphs key
      rw [graphAt, hview, Arenas.find_view, hfound] at hkey
      exact hkey
    exact ⟨ha.ends_path hgraph start goal, ha.path_eq_none_iff hgraph, fun _ => ha.shortest_of_path⟩
  · intro name role domain
    exact (hvalid.insertLink hview name role domain).2.1.symm
  · intro name role domain err hne herr
    exact shortest_of_insertLink hne (Prod.ext herr rfl)

/-- `c` inherits `d` over `x` or over `y` and `z`, and `a` was given to itself over `c`: the link from `d` to
`c` is refused with the shorter of the two chains. -/
theorem path_run_two_ways :
    let m := run {} [.addLink "c" "y" none, .addLink "y" "z" none, .addLink "z" "d" none,
      .addLink "c" "x" none, .addLink "x" "d" none, .addLink "a" "c" none, .addLink "c" "a" none,
      .rejectCycles true]
    (m.insertLink "d" "c" none).1 = .error (.cycle ["d", "c", "x", "d"]) ∧
      LinkChain (m.Link noDomain) "c" "d" ["c", "x", "d"] ∧
      ∀ other, LinkChain (m.Link noDomain) "c" "d" other → 3 ≤ other.length := by
  intro m
  have hrefused : (m.insertLink "d" "c" none).1 = .error (.cycle ["d", "c", "x", "d"]) := by decide
  obtain ⟨-, -, -, hcycle⟩ := path_run defaultMaxLevel _
  obtain ⟨back, hback, hchain, hshortest⟩ := hcycle "d" "c" none _ (by decide) hrefused
  obtain rfl : ["c", "x", "d"] = back := by simpa using hback
  refine ⟨hrefused, hchain, fun other hother => hshortest.shortest other ?_⟩
  exact ⟨hother.head_eq, hother.last_eq, hother.links.imp fun x y hxy => (link_withLink m _ _ _ _ x y).2 (Or.inl hxy)⟩

end RoleManager

end AccessControl
