import AccessControl.Proofs.Roles.Arena
/-!
# The search for a chain of links by ids

The search over ids keeps for every node that was seen the one before it, and the search over names keeps the
whole chain.  What they have in common is that the same nodes wait, and that the way back from each is its
chain; so they find the same chain, or none.

    WayBack parents start id way → the way back is found               (`WayBack.wayBack_eq`)
    a turn of both searches keeps what they have in common             (`Matches.step`)
    a.Valid → (a.path i j).map names = a.view.path? i's name j's name  (`Valid.map_path`)
-/

namespace AccessControl

namespace Arena

variable {a : Arena} {id : Nat}

/-! ## Ways back -/

/-- The nodes from a node back to the start, by a map to the node before. -/
inductive WayBack (parents : List (Nat × Nat)) (start : Nat) : Nat → List Nat → Prop where
  | start : WayBack parents start start [start]
  | step {current before : Nat} {way : List Nat} (hne : current ≠ start)
    (hbefore : parents.lookup current = some before) (hway : WayBack parents start before way) :
    WayBack parents start current (current :: way)

section

variable {parents : List (Nat × Nat)} {start current : Nat} {way : List Nat}

/-- A node that is seen for the first time has the node it came from before it. -/
theorem lookup_append_new {next : List Nat} {id : Nat} (hid : id ∈ next)
    (hnew : id ∉ parents.map (·.1)) :
    (parents ++ next.map fun id => (id, current)).lookup id = some current := by
  have hnone : parents.lookup id = none := by
    rw [List.lookup_eq_none_iff]
    intro p hp
    rw [bne_iff_ne]
    rintro rfl
    exact hnew (List.mem_map_of_mem hp)
  rw [List.lookup_append, hnone, Option.none_or]
  induction next with
  | nil => simp at hid
  | cons first rest ih =>
    rw [List.map_cons, List.lookup_cons]
    split
    · rfl
    · next hfirst => exact ih (List.mem_of_ne_of_mem (by simpa using hfirst) hid)

theorem WayBack.append (h : WayBack parents start current way) (more : List (Nat × Nat)) :
    WayBack (parents ++ more) start current way := by
  induction h with
  | start => exact .start
  | step hne hbefore _ ih =>
    refine .step hne ?_ ih
    rw [List.lookup_append, hbefore]
    rfl

theorem WayBack.wayBack_eq (h : WayBack parents start current way) {fuel : Nat} (hfuel : way.length ≤ fuel)
    (rest : List Nat) : wayBack parents start fuel current rest = some (way.reverse ++ rest) := by
  induction h generalizing fuel rest with
  | start =>
    cases fuel with
    | zero => simp at hfuel
    | succ fuel =>
      rw [wayBack, if_pos rfl]
      rfl
  | @step current before way hne hbefore _ ih =>
    cases fuel with
    | zero => simp at hfuel
    | succ fuel =>
      rw [wayBack, if_neg hne, hbefore]
      dsimp only
      rw [ih (Nat.le_of_succ_le_succ hfuel), List.reverse_cons, List.append_assoc, List.singleton_append]

end

/-! ## Both searches -/

/-- The links of a node are those of its name. -/
theorem Valid.rolesOf_view (ha : a.Valid) {e : String × ArenaNode} (h : a.nodes[id]? = some e) :
    a.view.rolesOf (a.name id) = e.2.roles.map a.name := by
  rw [LinkGraph.rolesOf, name_eq h, ha.find_view h]
  rfl

/-- What the search over ids and the search over names have in common: the same nodes wait, with the way back
from each, and the same nodes were seen. -/
structure Matches (a : Arena) (start : Nat) (queue : List Nat) (parents : List (Nat × Nat))
    (chains : List (List String)) (seen : List String) : Prop where
  ways : List.Forall₂ (fun id chain => ∃ way, WayBack parents start id way ∧ way.length ≤ parents.length ∧
    chain = way.map a.name) queue chains
  seen : seen = (parents.map (·.1)).map a.name
  start_mem : start ∈ parents.map (·.1)
  valid : ∀ id ∈ parents.map (·.1), id < a.nodes.length
  waits : ∀ id ∈ queue, id ∈ parents.map (·.1)

/-- A node that is taken puts its new roles at the end, with itself before them. -/
theorem Matches.step (ha : a.Valid) {start current : Nat} {queue : List Nat} {parents : List (Nat × Nat)}
    {chain : List String} {chains : List (List String)} {seen : List String}
    (h : a.Matches start (current :: queue) parents (chain :: chains) seen) {n : ArenaNode}
    (hn : ∀ id ∈ n.roles, id < a.nodes.length) :
    let next := n.roles.filter fun id => !(parents.map (·.1)).contains id
    let nextNames := (n.roles.map a.name).filter fun role => !seen.contains role
    a.Matches start (queue ++ next) (parents ++ next.map fun id => (id, current))
      (chains ++ nextNames.map fun role => role :: chain) (seen ++ nextNames) := by
  intro next nextNames
  obtain ⟨way, hway, hlength, hchain⟩ := (List.forall₂_cons.1 h.ways).1
  have hnew : ∀ id ∈ next, id ∈ n.roles ∧ id ∉ parents.map (·.1) := by
    intro id hid
    simpa [next] using hid
  have hnames : nextNames = next.map a.name := by
    have hsame : ∀ id ∈ n.roles, seen.contains (a.name id) = (parents.map (·.1)).contains id := by
      intro id hid
      rw [Bool.eq_iff_iff, List.contains_iff_mem, List.contains_iff_mem, h.seen]
      constructor
      · intro hmem
        obtain ⟨other, hother, heq⟩ := List.mem_map.1 hmem
        rwa [← ha.eq_of_name (h.valid other hother) (hn id hid) heq]
      · exact List.mem_map_of_mem
    rw [show nextNames = (n.roles.map a.name).filter fun role => !seen.contains role from rfl, List.filter_map]
    refine congrArg (List.map a.name) (List.filter_congr fun id hid => ?_)
    rw [Function.comp, hsame id hid]
  have hkeys : (parents ++ next.map fun id => (id, current)).map (·.1) = parents.map (·.1) ++ next := by
    simp [Function.comp_def]
  refine ⟨?_, ?_, ?_, ?_, ?_⟩
  · refine List.rel_append ?_ ?_
    -- the ways back of those that wait already go through nodes seen before
    · refine (List.forall₂_cons.1 h.ways).2.imp fun id chain hchain => ?_
      obtain ⟨way, hway, hlength, heq⟩ := hchain
      exact ⟨way, hway.append _, by rw [List.length_append]; omega, heq⟩
    · rw [hnames, List.map_map, List.forall₂_map_right_iff, List.forall₂_same]
      intro id hid
      have hstart : id ≠ start := by
        rintro rfl
        exact (hnew id hid).2 h.start_mem
      have hlookup : (parents ++ next.map fun id => (id, current)).lookup id = some current :=
        lookup_append_new hid (hnew id hid).2
      have hpos : 0 < next.length := List.length_pos_of_mem hid
      refine ⟨id :: way, .step hstart hlookup (hway.append _), ?_, ?_⟩
      · rw [List.length_append, List.length_map, List.length_cons]
        omega
      · rw [List.map_cons, ← hchain]
        rfl
  · rw [hkeys, List.map_append, ← h.seen, hnames]
  · rw [hkeys]
    exact List.mem_append_left _ h.start_mem
  · rw [hkeys, List.forall_mem_append]
    exact ⟨h.valid, fun id hid => hn id (hnew id hid).1⟩
  · rw [hkeys, List.forall_mem_append]
    exact ⟨fun id hid => List.mem_append_left _ (h.waits id (List.mem_cons_of_mem _ hid)),
      fun id hid => List.mem_append_right _ hid⟩

theorem Valid.map_pathFrom (ha : a.Valid) {start goal : Nat} (hgoal : goal < a.nodes.length) {fuel : Nat}
    {queue : List Nat} {parents : List (Nat × Nat)} {chains : List (List String)} {seen : List String}
    (h : a.Matches start queue parents chains seen) :
    (a.pathFrom start goal fuel queue parents).map (·.map a.name) =
      a.view.pathFrom (a.name goal) fuel chains seen := by
  induction fuel generalizing queue parents chains seen with
  | zero => rfl
  | succ fuel ih =>
    cases queue with
    | nil =>
      rw [List.forall₂_nil_left_iff.1 h.ways]
      rfl
    | cons current queue =>
      obtain ⟨chain, chains, hcurrent, -, rfl⟩ := List.forall₂_cons_left_iff.1 h.ways
      obtain ⟨way, hway, hlength, rfl⟩ := hcurrent
      have hvalid := h.valid current (h.waits current List.mem_cons_self)
      obtain ⟨before, rfl⟩ : ∃ before, way = current :: before := by
        cases hway with
        | start => exact ⟨_, rfl⟩
        | step => exact ⟨_, rfl⟩
      rw [List.map_cons, pathFrom, LinkGraph.pathFrom]
      by_cases heq : current = goal
      · subst heq
        rw [if_pos rfl, if_pos rfl, hway.wayBack_eq hlength, List.append_nil, ← List.map_cons,
          ← List.map_reverse]
        rfl
      · have hne : a.name current ≠ a.name goal := fun hname => heq (ha.eq_of_name hvalid hgoal hname)
        obtain ⟨e, he⟩ := exists_node hvalid
        have hids : ∀ id ∈ e.2.roles, id < a.nodes.length := fun id hid =>
          ha.ids e (List.mem_of_getElem? he) id (List.mem_append_left _ hid)
        rw [if_neg heq, if_neg hne, ha.rolesOf_view he, node?, he]
        exact ih (h.step ha hids)

theorem matches_start {start : Nat} (hstart : start < a.nodes.length) :
    a.Matches start [start] [(start, start)] [[a.name start]] [a.name start] := by
  refine ⟨.cons ⟨[start], .start, Nat.le_refl _, rfl⟩ .nil, rfl, List.mem_singleton.2 rfl, ?_, ?_⟩
  · simpa using hstart
  · simp

/-- A chain of links by ids is the chain by names. -/
theorem Valid.map_path (ha : a.Valid) {start goal : Nat} (hstart : start < a.nodes.length)
    (hgoal : goal < a.nodes.length) :
    (a.path start goal).map (·.map a.name) = a.view.path? (a.name start) (a.name goal) := by
  rw [path, LinkGraph.path?, length_view]
  exact ha.map_pathFrom hgoal (matches_start hstart)

end Arena

end AccessControl
