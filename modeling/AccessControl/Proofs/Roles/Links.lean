import AccessControl.Proofs.Table
import AccessControl.Roles.LinkGraph
import Mathlib.Logic.Relation
/-!
# The links of a graph

`Edge` is the relation that a graph stores, and `WellFormed` says that it stores it twice without
contradiction: every role lists its users, every user its roles, each once.

    (g.link a b).Edge x y ↔ g.Edge x y ∨ (x = a ∧ y = b)               (`edge_link`)
    (g.unlink a b).Edge x y ↔ g.Edge x y ∧ ¬ (x = a ∧ y = b)           (`edge_unlink`)
    a link between names of an acyclic graph that closes no cycle keeps it acyclic
                                                                       (`acyclic_link`)
    (g.link a b).restore (g.checkpoint a b) = g                        (`restore_link`)
-/

namespace AccessControl

namespace LinkGraph

/-- A stored link: the first name inherits the second. -/
def Edge (g : LinkGraph) (name role : String) : Prop := role ∈ g.rolesOf name

instance (g : LinkGraph) (name role : String) : Decidable (g.Edge name role) :=
  inferInstanceAs (Decidable (role ∈ g.rolesOf name))

/-- Names are distinct, and both ends of every link know it, once. -/
structure WellFormed (g : LinkGraph) : Prop where
  distinct : g.nodes.keys.Nodup
  mirror : ∀ name role, role ∈ g.rolesOf name ↔ name ∈ g.usersOf role
  nodup_roles : ∀ name, (g.rolesOf name).Nodup
  nodup_users : ∀ role, (g.usersOf role).Nodup

/-- No name inherits itself over any number of links. -/
def Acyclic (g : LinkGraph) : Prop := ∀ name, ¬ Relation.TransGen g.Edge name name

/-! ## Nodes -/

theorem mem_keys_of_mem_rolesOf {g : LinkGraph} {name role : String} (h : role ∈ g.rolesOf name) :
    name ∈ g.nodes.keys := by
  by_contra hn
  rw [← Table.find_eq_none_iff] at hn
  simp [rolesOf, hn] at h

theorem mem_keys_of_mem_usersOf {g : LinkGraph} {name role : String} (h : name ∈ g.usersOf role) :
    role ∈ g.nodes.keys := by
  by_contra hn
  rw [← Table.find_eq_none_iff] at hn
  simp [usersOf, hn] at h

/-- Both ends of a link are nodes. -/
theorem WellFormed.mem_keys {g : LinkGraph} (h : g.WellFormed) {name role : String}
    (hr : g.Edge name role) : name ∈ g.nodes.keys ∧ role ∈ g.nodes.keys :=
  ⟨mem_keys_of_mem_rolesOf hr, mem_keys_of_mem_usersOf ((h.mirror name role).1 hr)⟩

theorem keys_intern (g : LinkGraph) (name : String) :
    (g.intern name).nodes.keys = addNew g.nodes.keys name := by
  unfold intern
  split
  · next h => rw [addNew, if_pos ((Table.contains_iff _ _).1 h)]
  · exact Table.keys_put _ _ _

@[simp] theorem rolesOf_intern (g : LinkGraph) (name other : String) :
    (g.intern name).rolesOf other = g.rolesOf other := by
  unfold intern
  split
  · rfl
  · next h =>
    rw [Table.contains_iff, ← Table.find_eq_none_iff] at h
    simp only [rolesOf, Table.find_put]
    split
    · next heq => simp [← heq, h]
    · rfl

@[simp] theorem usersOf_intern (g : LinkGraph) (name other : String) :
    (g.intern name).usersOf other = g.usersOf other := by
  unfold intern
  split
  · rfl
  · next h =>
    rw [Table.contains_iff, ← Table.find_eq_none_iff] at h
    simp only [usersOf, Table.find_put]
    split
    · next heq => simp [← heq, h]
    · rfl

/-! ## Adding a link -/

@[simp] theorem keys_connect (g : LinkGraph) (name role : String) :
    (g.connect name role).nodes.keys = g.nodes.keys := by
  simp [connect]

theorem rolesOf_connect {g : LinkGraph} {name : String} (h : name ∈ g.nodes.keys)
    (role other : String) :
    (g.connect name role).rolesOf other =
      if name = other then addNew (g.rolesOf name) role else g.rolesOf other := by
  obtain ⟨n, hn⟩ := Option.isSome_iff_exists.1 ((Table.contains_iff _ _).2 h)
  simp only [rolesOf, connect, Table.find_update]
  by_cases hno : name = other
  · subst hno
    by_cases hr : role = name <;> simp [hr, hn]
  · by_cases hr : role = other <;> simp [hr, hno, Function.comp_def]

theorem usersOf_connect {g : LinkGraph} {role : String} (h : role ∈ g.nodes.keys)
    (name other : String) :
    (g.connect name role).usersOf other =
      if role = other then addNew (g.usersOf role) name else g.usersOf other := by
  obtain ⟨n, hn⟩ := Option.isSome_iff_exists.1 ((Table.contains_iff _ _).2 h)
  simp only [usersOf, connect, Table.find_update]
  by_cases hro : role = other
  · subst hro
    by_cases hr : name = role <;> simp [hr, hn]
  · by_cases hr : name = other <;> simp [hr, hro, Function.comp_def]

theorem keys_link (g : LinkGraph) (name role : String) :
    (g.link name role).nodes.keys = addNew (addNew g.nodes.keys name) role := by
  simp [link, keys_intern]

theorem rolesOf_link (g : LinkGraph) (name role other : String) :
    (g.link name role).rolesOf other =
      if name = other then addNew (g.rolesOf name) role else g.rolesOf other := by
  have hmem : name ∈ ((g.intern name).intern role).nodes.keys := by
    simp [keys_intern, mem_addNew]
  rw [link, rolesOf_connect hmem]
  simp

theorem usersOf_link (g : LinkGraph) (name role other : String) :
    (g.link name role).usersOf other =
      if role = other then addNew (g.usersOf role) name else g.usersOf other := by
  have hmem : role ∈ ((g.intern name).intern role).nodes.keys := by
    simp [keys_intern, mem_addNew]
  rw [link, usersOf_connect hmem]
  simp

/-- Adding a link adds this link and no other. -/
theorem edge_link (g : LinkGraph) (name role x y : String) :
    (g.link name role).Edge x y ↔ g.Edge x y ∨ (x = name ∧ y = role) := by
  unfold Edge
  rw [rolesOf_link]
  by_cases h : name = x
  · subst h
    simp [mem_addNew]
  · simp [h, Ne.symm h]

theorem WellFormed.link {g : LinkGraph} (h : g.WellFormed) (name role : String) :
    (g.link name role).WellFormed where
  distinct := by
    rw [keys_link]
    exact nodup_addNew (nodup_addNew h.distinct name) role
  mirror x y := by
    rw [rolesOf_link, usersOf_link]
    have hm := h.mirror x y
    by_cases hx : name = x <;> by_cases hy : role = y
    · subst hx hy; simp [mem_addNew, hm]
    · subst hx; simp [mem_addNew, hm, hy, Ne.symm hy]
    · subst hy; simp [mem_addNew, hm, hx, Ne.symm hx]
    · simp [hx, hy, hm]
  nodup_roles x := by
    rw [rolesOf_link]
    split
    · exact nodup_addNew (h.nodup_roles name) role
    · exact h.nodup_roles x
  nodup_users y := by
    rw [usersOf_link]
    split
    · exact nodup_addNew (h.nodup_users role) name
    · exact h.nodup_users y

/-- A link that is there stays as it is when it is added again, at both of its ends. -/
theorem WellFormed.link_of_edge {g : LinkGraph} (h : g.WellFormed) {name role : String}
    (hlink : g.Edge name role) : g.link name role = g := by
  obtain ⟨hname, hrole⟩ := h.mem_keys hlink
  have hintern : ∀ n ∈ g.nodes.keys, g.intern n = g := fun n hn =>
    if_pos ((Table.contains_iff _ _).2 hn)
  rw [LinkGraph.link, hintern name hname, hintern role hrole, connect]
  have hnode : g.nodes.update name (fun n => { n with roles := addNew n.roles role }) = g.nodes := by
    refine Table.update_of_find fun n hn => ?_
    have hmem : role ∈ n.roles := by simpa [Edge, rolesOf, hn] using hlink
    simp [addNew, hmem]
  have hback : g.nodes.update role (fun n => { n with users := addNew n.users name }) = g.nodes := by
    refine Table.update_of_find fun n hn => ?_
    have hmem : name ∈ n.users := by simpa [usersOf, hn] using (h.mirror name role).1 hlink
    simp [addNew, hmem]
  rw [hnode, hback]

/-! ## Dropping a link -/

theorem keys_unlink (g : LinkGraph) (name role : String) :
    (g.unlink name role).nodes.keys = g.nodes.keys := by
  unfold unlink
  split <;> simp

theorem WellFormed.rolesOf_unlink {g : LinkGraph} (h : g.WellFormed) (name role other : String) :
    (g.unlink name role).rolesOf other =
      if name = other then (g.rolesOf name).erase role else g.rolesOf other := by
  by_cases hlink : name ∈ g.nodes.keys ∧ role ∈ g.nodes.keys
  · obtain ⟨n, hn⟩ := Option.isSome_iff_exists.1 ((Table.contains_iff _ _).2 hlink.1)
    simp only [unlink, (Table.contains_iff _ _).2 hlink.1, (Table.contains_iff _ _).2 hlink.2,
      Bool.and_self, if_true, rolesOf, Table.find_update]
    by_cases hno : name = other
    · subst hno
      by_cases hr : role = name <;> simp [hr, hn]
    · by_cases hr : role = other <;> simp [hr, hno, Function.comp_def]
  · have hedge : role ∉ g.rolesOf name := fun hr => hlink (h.mem_keys hr)
    have hsame : g.unlink name role = g := by
      rw [unlink, if_neg]
      simpa [Table.contains_iff] using hlink
    rw [hsame, List.erase_of_not_mem hedge]
    split
    · next heq => rw [heq]
    · rfl

theorem WellFormed.usersOf_unlink {g : LinkGraph} (h : g.WellFormed) (name role other : String) :
    (g.unlink name role).usersOf other =
      if role = other then (g.usersOf role).erase name else g.usersOf other := by
  by_cases hlink : name ∈ g.nodes.keys ∧ role ∈ g.nodes.keys
  · obtain ⟨n, hn⟩ := Option.isSome_iff_exists.1 ((Table.contains_iff _ _).2 hlink.2)
    simp only [unlink, (Table.contains_iff _ _).2 hlink.1, (Table.contains_iff _ _).2 hlink.2,
      Bool.and_self, if_true, usersOf, Table.find_update]
    by_cases hro : role = other
    · subst hro
      by_cases hr : name = role <;> simp [hr, hn]
    · by_cases hr : name = other <;> simp [hr, hro, Function.comp_def]
  · have hedge : name ∉ g.usersOf role := fun hr => hlink (h.mem_keys ((h.mirror _ _).2 hr))
    have hsame : g.unlink name role = g := by
      rw [unlink, if_neg]
      simpa [Table.contains_iff] using hlink
    rw [hsame, List.erase_of_not_mem hedge]
    split
    · next heq => rw [heq]
    · rfl

/-- Dropping a link drops this link and no other. -/
theorem WellFormed.edge_unlink {g : LinkGraph} (h : g.WellFormed) (name role x y : String) :
    (g.unlink name role).Edge x y ↔ g.Edge x y ∧ ¬ (x = name ∧ y = role) := by
  unfold Edge
  rw [h.rolesOf_unlink]
  by_cases hx : name = x
  · subst hx
    rw [if_pos rfl, (h.nodup_roles name).mem_erase_iff]
    simp [and_comm]
  · simp [hx, Ne.symm hx]

theorem WellFormed.unlink {g : LinkGraph} (h : g.WellFormed) (name role : String) :
    (g.unlink name role).WellFormed where
  distinct := by rw [keys_unlink]; exact h.distinct
  mirror x y := by
    rw [h.rolesOf_unlink, h.usersOf_unlink]
    have hm := h.mirror x y
    by_cases hx : name = x <;> by_cases hy : role = y
    · subst hx hy
      simp [(h.nodup_roles name).mem_erase_iff, (h.nodup_users role).mem_erase_iff]
    · subst hx
      simp [(h.nodup_roles name).mem_erase_iff, hm, hy, Ne.symm hy]
    · subst hy
      simp [(h.nodup_users role).mem_erase_iff, hm, hx, Ne.symm hx]
    · simp [hx, hy, hm]
  nodup_roles x := by
    rw [h.rolesOf_unlink]
    split
    · exact (h.nodup_roles name).erase role
    · exact h.nodup_roles x
  nodup_users y := by
    rw [h.usersOf_unlink]
    split
    · exact (h.nodup_users role).erase name
    · exact h.nodup_users y

/-! ## Taking a link back -/

/-- New nodes come behind those that were there. -/
theorem take_intern (g : LinkGraph) (name : String) {n : Nat} (h : n ≤ g.nodes.length) :
    (g.intern name).nodes.take n = g.nodes.take n := by
  unfold intern
  split
  · rfl
  · next hname =>
    rw [Table.contains_iff] at hname
    dsimp only
    rw [Table.put_of_not_mem hname, List.take_append_of_le_length h]

theorem length_le_intern (g : LinkGraph) (name : String) :
    g.nodes.length ≤ (g.intern name).nodes.length := by
  unfold intern
  split
  · exact Nat.le_refl _
  · next hname =>
    rw [Table.contains_iff] at hname
    dsimp only
    rw [Table.put_of_not_mem hname, List.length_append]
    exact Nat.le_add_right _ _

/-- Among the nodes that were there, a link changes those of its two names. -/
theorem take_link (g : LinkGraph) (name role : String) :
    (g.link name role).nodes.take g.nodes.length =
      (g.nodes.update name fun n => { n with roles := addNew n.roles role }).update role fun n =>
        { n with users := addNew n.users name } := by
  have hnodes : ((g.intern name).intern role).nodes.take g.nodes.length = g.nodes := by
    rw [take_intern _ _ (g.length_le_intern name), take_intern _ _ (Nat.le_refl _), List.take_length]
  unfold link connect
  dsimp only
  rw [Table.take_update, Table.take_update, hnodes]

/-- What a checkpoint puts back for one name is what was there. -/
theorem foldl_checkpoint (t nodes : Table LinkNode) (name role : String) :
    ([name, role].filterMap fun n => (t.find n).map fun node => (n, node)).foldl
        (fun nodes e => nodes.update e.1 fun _ => e.2) nodes =
      (nodes.update name fun n => (t.find name).getD n).update role fun n =>
        (t.find role).getD n := by
  have hsame : ∀ (u : Table LinkNode) (k : String), (u.update k fun n => n) = u := fun u k =>
    Table.update_of_find fun _ _ => rfl
  cases hname : t.find name <;> cases hrole : t.find role <;> simp [hname, hrole, hsame]

/-- A graph whose two nodes are put back, and whose new nodes are dropped, is the graph before. -/
theorem restore_link (g : LinkGraph) {name role : String} (h : name ≠ role) :
    (g.link name role).restore (g.checkpoint name role) = g := by
  have hback : ∀ k, (g.nodes.update k fun n => (g.nodes.find k).getD n) = g.nodes := fun k =>
    Table.update_of_find fun a ha => by rw [ha]; rfl
  have hput : ∀ (k : String) (f : LinkNode → LinkNode),
      ((g.nodes.update k f).update k fun n => (g.nodes.find k).getD n) = g.nodes := by
    intro k f
    rw [Table.update_update]
    exact Table.update_of_find fun a ha => by rw [ha]; rfl
  unfold restore checkpoint
  dsimp only
  rw [take_link, foldl_checkpoint, Table.update_comm _ (Ne.symm h), hput, hput]

/-! ## The graph without links -/

theorem wellFormed_empty : ({} : LinkGraph).WellFormed where
  distinct := List.nodup_nil
  mirror := by simp [rolesOf, usersOf]
  nodup_roles := by simp [rolesOf]
  nodup_users := by simp [usersOf]

@[simp] theorem edge_empty (x y : String) : ¬ ({} : LinkGraph).Edge x y := by
  simp [Edge, rolesOf]

/-! ## Cycles -/

theorem Acyclic.mono {g k : LinkGraph} (h : k.Acyclic) (hsub : ∀ x y, g.Edge x y → k.Edge x y) :
    g.Acyclic :=
  fun name hcycle => h name (Relation.TransGen.mono hsub _ _ hcycle)

theorem acyclic_empty : ({} : LinkGraph).Acyclic := by
  intro name h
  obtain ⟨_, hedge, -⟩ := Relation.TransGen.head'_iff.1 h
  exact edge_empty _ _ hedge

/-- A chain after adding a link either was there before or goes over the new link. -/
theorem chain_link {g : LinkGraph} {name role x y : String}
    (h : Relation.TransGen (g.link name role).Edge x y) :
    Relation.TransGen g.Edge x y ∨
      (Relation.ReflTransGen (g.link name role).Edge x name ∧
        Relation.ReflTransGen (g.link name role).Edge role y) := by
  induction h with
  | single hxy =>
    rcases (edge_link g name role _ _).1 hxy with hold | ⟨rfl, rfl⟩
    · exact Or.inl (.single hold)
    · exact Or.inr ⟨.refl, .refl⟩
  | tail hxy hyz ih =>
    rcases (edge_link g name role _ _).1 hyz with hold | ⟨rfl, rfl⟩
    · rcases ih with hbefore | ⟨hto, hfrom⟩
      · exact Or.inl (hbefore.tail hold)
      · exact Or.inr ⟨hto, hfrom.tail hyz⟩
    · exact Or.inr ⟨hxy.to_reflTransGen, .refl⟩

/-- A link whose role does not reach its name closes no cycle. -/
theorem acyclic_link {g : LinkGraph} (h : g.Acyclic) {name role : String}
    (hback : ¬ Relation.ReflTransGen (g.link name role).Edge role name) :
    (g.link name role).Acyclic := by
  intro x hcycle
  rcases chain_link hcycle with hold | ⟨hto, hfrom⟩
  · exact h x hold
  · exact hback (hfrom.trans hto)

/-- A link whose role reaches its name is part of a cycle. -/
theorem not_acyclic_link {g : LinkGraph} {name role : String}
    (hback : Relation.ReflTransGen (g.link name role).Edge role name) :
    ¬ (g.link name role).Acyclic := by
  intro h
  have hnew : (g.link name role).Edge name role := (edge_link _ _ _ _ _).2 (Or.inr ⟨rfl, rfl⟩)
  exact h name (Relation.TransGen.head' hnew hback)

/-- A way back to the name of a link from its role does not need the link. -/
theorem reaches_of_reaches_link {g : LinkGraph} {name role : String}
    (h : Relation.ReflTransGen (g.link name role).Edge role name) :
    Relation.ReflTransGen g.Edge role name := by
  have hway : ∀ y, Relation.ReflTransGen (g.link name role).Edge role y →
      Relation.ReflTransGen g.Edge role y ∨ Relation.ReflTransGen g.Edge role name := by
    intro y hy
    induction hy with
    | refl => exact Or.inl .refl
    | tail _ hedge ih =>
      rcases ih with hto | hback
      · rcases (edge_link g name role _ _).1 hedge with hold | ⟨rfl, rfl⟩
        · exact Or.inl (hto.tail hold)
        · exact Or.inr hto
      · exact Or.inr hback
  exact (hway name h).elim id id

/-- A link closes a cycle exactly when its role reaches its name without it. -/
theorem Acyclic.link_iff {g : LinkGraph} (h : g.Acyclic) (name role : String) :
    (g.link name role).Acyclic ↔ ¬ Relation.ReflTransGen g.Edge role name := by
  constructor
  · intro hlink hback
    refine not_acyclic_link (Relation.ReflTransGen.mono (fun x y hxy => ?_) _ _ hback) hlink
    exact (edge_link g name role x y).2 (Or.inl hxy)
  · intro hback
    exact acyclic_link h fun hlink => hback (reaches_of_reaches_link hlink)

end LinkGraph

end AccessControl
