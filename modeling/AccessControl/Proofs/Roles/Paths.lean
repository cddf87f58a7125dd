import AccessControl.Proofs.Roles.Links
import Mathlib.Data.List.Perm.Subperm
/-!
# The search for a chain of links

The breadth-first search finds a chain exactly when there is one.  One half is what every chain in the
queue stands for: a way from the start to its last name.  The other half is what every seen name
stands for: it still waits in the queue, or all its roles are seen.

    g.path? start goal = some chain → goal is reached from start       (`reaches_of_path?`)
    g.path? start goal = none → goal is not reached from start         (`WellFormed.not_reaches_of_path?`)
    a link is found to close a cycle exactly when it does              (`WellFormed.path?_link_cases`)
-/

namespace AccessControl

namespace LinkGraph

open Relation

/-! ## A chain that is found is there -/

theorem reaches_of_pathFrom {g : LinkGraph} {start goal : String} {fuel : Nat}
    {queue : List (List String)} {seen chain : List String}
    (hqueue : ∀ x before, (x :: before) ∈ queue → ReflTransGen g.Edge start x)
    (h : g.pathFrom goal fuel queue seen = some chain) : ReflTransGen g.Edge start goal := by
  fun_induction pathFrom g goal fuel queue seen with
  | case1 => simp at h
  | case2 => simp at h
  | case3 fuel queue seen ih =>
    exact ih (fun x before hx => hqueue x before (List.mem_cons_of_mem _ hx)) h
  | case4 fuel before queue seen => exact hqueue goal before List.mem_cons_self
  | case5 fuel current before queue seen hne next ih =>
    have hcurrent := hqueue current before List.mem_cons_self
    refine ih (fun x more hx => ?_) h
    rcases List.mem_append.1 hx with hold | hnew
    · exact hqueue x more (List.mem_cons_of_mem _ hold)
    · obtain ⟨role, hrole, heq⟩ := List.mem_map.1 hnew
      simp only [List.cons.injEq] at heq
      obtain ⟨rfl, -⟩ := heq
      exact hcurrent.tail (List.mem_of_mem_filter hrole)

theorem reaches_of_path? {g : LinkGraph} {start goal : String} {chain : List String}
    (h : g.path? start goal = some chain) : ReflTransGen g.Edge start goal := by
  refine reaches_of_pathFrom (fun x before hx => ?_) h
  simp only [List.mem_singleton, List.cons.injEq] at hx
  rw [hx.1]

/-! ## A chain that is there is found -/

/-- The nodes that the search has not come to. -/
def unseenNodes (g : LinkGraph) (seen : List String) : List String :=
  g.nodes.keys.filter fun name => !seen.contains name

/-- Newly seen nodes leave the unseen ones. -/
theorem length_unseenNodes_append {g : LinkGraph} (seen next : List String) (hn : g.nodes.keys.Nodup)
    (hnext : next.Nodup) (hsub : ∀ x ∈ next, x ∈ g.unseenNodes seen) :
    next.length + (g.unseenNodes (seen ++ next)).length ≤ (g.unseenNodes seen).length := by
  have hnodup : (next ++ g.unseenNodes (seen ++ next)).Nodup := by
    rw [List.nodup_append]
    refine ⟨hnext, hn.filter _, ?_⟩
    rintro x hx y hy rfl
    simp [unseenNodes, hx] at hy
  have hsubset : next ++ g.unseenNodes (seen ++ next) ⊆ g.unseenNodes seen := by
    intro x hx
    rcases List.mem_append.1 hx with hx | hx
    · exact hsub x hx
    · simp only [unseenNodes, List.mem_filter, List.contains_append, Bool.not_or,
        Bool.and_eq_true] at hx ⊢
      exact ⟨hx.1, hx.2.1⟩
  have hle := (hnodup.subperm hsubset).length_le
  rwa [List.length_append] at hle

/-- The new roles of a name leave the unseen nodes. -/
theorem WellFormed.length_unseenNodes_roles {g : LinkGraph} (hg : g.WellFormed) (name : String)
    (seen : List String) :
    let next := (g.rolesOf name).filter fun role => !seen.contains role
    next.length + (g.unseenNodes (seen ++ next)).length ≤ (g.unseenNodes seen).length := by
  intro next
  refine length_unseenNodes_append seen next hg.distinct ((hg.nodup_roles name).filter _) fun x hx => ?_
  obtain ⟨hrole, hunseen⟩ := List.mem_filter.1 hx
  exact List.mem_filter.2 ⟨(hg.mem_keys hrole).2, hunseen⟩

/-- What a set of names that is closed under links reaches is in it. -/
theorem mem_of_reaches {g : LinkGraph} {names : List String}
    (hclosed : ∀ x ∈ names, ∀ y, g.Edge x y → y ∈ names) {start goal : String}
    (hstart : start ∈ names) (h : ReflTransGen g.Edge start goal) : goal ∈ names := by
  induction h with
  | refl => exact hstart
  | tail _ hedge ih => exact hclosed _ ih _ hedge

/-- The search ends with the queue empty, and then the seen names are closed under links. -/
theorem WellFormed.not_reaches_of_pathFrom {g : LinkGraph} (hg : g.WellFormed) {start goal : String}
    {fuel : Nat} {queue : List (List String)} {seen : List String} (hstart : start ∈ seen)
    (hseen : ∀ x ∈ seen, (∃ before, (x :: before) ∈ queue) ∨
      (x ≠ goal ∧ ∀ y, g.Edge x y → y ∈ seen))
    (hfuel : queue.length + (g.unseenNodes seen).length < fuel)
    (h : g.pathFrom goal fuel queue seen = none) : ¬ ReflTransGen g.Edge start goal := by
  fun_induction pathFrom g goal fuel queue seen with
  | case1 => omega
  | case2 fuel seen =>
    have hclosed : ∀ x ∈ seen, x ≠ goal ∧ ∀ y, g.Edge x y → y ∈ seen := by
      intro x hx
      rcases hseen x hx with ⟨before, hb⟩ | hdone
      · simp at hb
      · exact hdone
    intro hreach
    have hgoal := mem_of_reaches (fun x hx => (hclosed x hx).2) hstart hreach
    exact (hclosed goal hgoal).1 rfl
  | case3 fuel queue seen ih =>
    refine ih hstart (fun x hx => ?_) (by simp only [List.length_cons] at hfuel; omega) h
    rcases hseen x hx with ⟨before, hb⟩ | hdone
    · exact Or.inl ⟨before, by simpa using hb⟩
    · exact Or.inr hdone
  | case4 => simp at h
  | case5 fuel current before queue seen hne next ih =>
    refine ih (List.mem_append_left _ hstart) (fun x hx => ?_) ?_ h
    · rcases List.mem_append.1 hx with hold | hnew
      · rcases hseen x hold with ⟨more, hm⟩ | ⟨hxg, hroles⟩
        · rcases List.mem_cons.1 hm with heq | hm
          · -- the name taken from the queue: its roles are all seen now
            simp only [List.cons.injEq] at heq
            obtain ⟨rfl, -⟩ := heq
            refine Or.inr ⟨hne, fun y hy => ?_⟩
            by_cases hys : y ∈ seen
            · exact List.mem_append_left _ hys
            · exact List.mem_append_right _ (List.mem_filter.2 ⟨hy, by simpa using hys⟩)
          · exact Or.inl ⟨more, List.mem_append_left _ hm⟩
        · exact Or.inr ⟨hxg, fun y hy => List.mem_append_left _ (hroles y hy)⟩
      · exact Or.inl ⟨current :: before, List.mem_append_right _ (List.mem_map.2 ⟨x, hnew, rfl⟩)⟩
    · have hcount : next.length + (g.unseenNodes (seen ++ next)).length ≤ (g.unseenNodes seen).length :=
        hg.length_unseenNodes_roles current seen
      simp only [List.length_cons, List.length_append, List.length_map] at hfuel ⊢
      omega

theorem WellFormed.not_reaches_of_path? {g : LinkGraph} (hg : g.WellFormed) {start goal : String}
    (h : g.path? start goal = none) : ¬ ReflTransGen g.Edge start goal := by
  refine hg.not_reaches_of_pathFrom (by simp) (fun x hx => ?_) ?_ h
  · rw [List.mem_singleton] at hx
    exact Or.inl ⟨[], by simp [hx]⟩
  · have hle := List.length_filter_le (fun name => !([start].contains name)) g.nodes.keys
    simp only [Table.keys, List.length_map] at hle
    simp only [unseenNodes, Table.keys, List.length_singleton]
    omega

/-! ## Links that close no cycle -/

/-- The search from the role of a link back to its name tells whether the link closes a cycle. -/
theorem WellFormed.path?_link_cases {g : LinkGraph} (hg : g.WellFormed) (ha : g.Acyclic)
    (name role : String) :
    ((g.link name role).path? role name = none ∧ (g.link name role).Acyclic) ∨
      (∃ chain, (g.link name role).path? role name = some chain) ∧ ¬ (g.link name role).Acyclic := by
  cases hpath : (g.link name role).path? role name with
  | some chain => exact Or.inr ⟨⟨chain, rfl⟩, not_acyclic_link (reaches_of_path? hpath)⟩
  | none =>
    have hback := (hg.link name role).not_reaches_of_path? hpath
    exact Or.inl ⟨rfl, acyclic_link ha hback⟩

end LinkGraph

end AccessControl
