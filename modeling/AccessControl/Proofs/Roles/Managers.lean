import AccessControl.Proofs.Roles.Paths
import AccessControl.Roles.Manager
/-!
# The links of a manager

A manager holds links under the keys of domains.  Every operation says what it does to them, and a
manager that any operations built holds well-formed graphs under distinct keys.

    an accepted link is held afterwards, and no other link changes     (`WellFormed.addLink_cases`)
    a refused link leaves the manager as it was                        (`insertLink_error`)
    a dropped link is not held afterwards, and no other link changes   (`WellFormed.link_deleteLink`)
    (run m operations).WellFormed                                      (`wellFormed_run`)

Two managers have the same settings when they are the same once cleared.
-/

namespace AccessControl

namespace RoleManager

/-- The graph of a domain; a domain that never came up has no links. -/
def graphAt (m : RoleManager) (key : String) : LinkGraph := (m.domains.find key).getD {}

/-- A held link: the name inherits the role in the domain with a key. -/
def Link (m : RoleManager) (key name role : String) : Prop := (m.graphAt key).Edge name role

instance (m : RoleManager) (key name role : String) : Decidable (m.Link key name role) :=
  inferInstanceAs (Decidable ((m.graphAt key).Edge name role))

/-- Domains are distinct, and their graphs are well formed. -/
structure WellFormed (m : RoleManager) : Prop where
  distinct : m.domains.keys.Nodup
  graphs : ∀ key, (m.graphAt key).WellFormed

/-- No domain has a cycle. -/
def Acyclic (m : RoleManager) : Prop := ∀ key, (m.graphAt key).Acyclic

/-! ## Operations -/

/-- What can be done to a manager. -/
inductive Operation where
  | addLink (name role : String) (domain : Option String)
  | deleteLink (name role : String) (domain : Option String)
  | clear
  | setNameMatch (f : Option NameMatch)
  | setDomainMatch (f : Option NameMatch)
  | setMaxLevel (level : Nat)
  | rejectCycles (on : Bool)

/-- The manager after an operation. -/
def apply (m : RoleManager) : Operation → RoleManager
  | .addLink name role domain => (m.insertLink name role domain).2
  | .deleteLink name role domain => m.deleteLink name role domain
  | .clear => m.clear
  | .setNameMatch f => { m with nameMatch := f }
  | .setDomainMatch f => { m with domainMatch := f }
  | .setMaxLevel level => { m with maxLevel := level }
  | .rejectCycles on => { m with rejectCycles := on }

/-- The manager after operations in order. -/
def run (m : RoleManager) (operations : List Operation) : RoleManager := operations.foldl apply m

/-! ## One operation -/

theorem graphAt_put (m : RoleManager) (key other : String) (g : LinkGraph) :
    ({ m with domains := m.domains.put key g } : RoleManager).graphAt other =
      if key = other then g else m.graphAt other := by
  simp only [graphAt, Table.find_put]
  split <;> rfl

theorem unlink_empty (name role : String) : ({} : LinkGraph).unlink name role = {} := rfl

theorem graphAt_deleteLink (m : RoleManager) (name role : String) (domain : Option String)
    (other : String) :
    (m.deleteLink name role domain).graphAt other =
      if domainKey domain = other then (m.graphAt other).unlink name role else m.graphAt other := by
  simp only [graphAt, deleteLink, Table.find_update]
  split
  · cases m.domains.find other with
    | none => exact (unlink_empty name role).symm
    | some g => rfl
  · rfl

@[simp] theorem graphAt_clear (m : RoleManager) (key : String) : m.clear.graphAt key = {} := rfl

@[simp] theorem link_clear (m : RoleManager) (key name role : String) : ¬ m.clear.Link key name role :=
  LinkGraph.edge_empty name role

theorem wellFormed_clear (m : RoleManager) : m.clear.WellFormed where
  distinct := List.nodup_nil
  graphs _ := LinkGraph.wellFormed_empty

theorem acyclic_clear (m : RoleManager) : m.clear.Acyclic := fun _ => LinkGraph.acyclic_empty

@[simp] theorem clear_clear (m : RoleManager) : m.clear.clear = m.clear := rfl

/-- The manager with a link added, whether or not it closes a cycle. -/
def withLink (m : RoleManager) (name role : String) (domain : Option String) : RoleManager :=
  { m with domains := m.domains.put (domainKey domain) ((m.graphAt (domainKey domain)).link name role) }

theorem link_withLink (m : RoleManager) (name role : String) (domain : Option String)
    (key x y : String) :
    (m.withLink name role domain).Link key x y ↔
      m.Link key x y ∨ (key = domainKey domain ∧ x = name ∧ y = role) := by
  unfold Link withLink
  rw [graphAt_put]
  by_cases h : domainKey domain = key
  · subst h
    simp [LinkGraph.edge_link]
  · simp [h, Ne.symm h]

theorem WellFormed.withLink {m : RoleManager} (h : m.WellFormed) (name role : String)
    (domain : Option String) : (m.withLink name role domain).WellFormed where
  distinct := Table.nodup_keys_put h.distinct _ _
  graphs key := by
    unfold RoleManager.withLink
    rw [graphAt_put]
    split
    · exact (h.graphs _).link name role
    · exact h.graphs key

@[simp] theorem clear_withLink (m : RoleManager) (name role : String) (domain : Option String) :
    (m.withLink name role domain).clear = m.clear := rfl

theorem Acyclic.withLink_iff {m : RoleManager} (h : m.Acyclic) (name role : String)
    (domain : Option String) : (m.withLink name role domain).Acyclic ↔
      ((m.graphAt (domainKey domain)).link name role).Acyclic := by
  constructor
  · intro hall
    have hkey := hall (domainKey domain)
    rwa [RoleManager.withLink, graphAt_put, if_pos rfl] at hkey
  · intro hlink key
    rw [RoleManager.withLink, graphAt_put]
    split
    · exact hlink
    · exact h key

theorem eq_withLink_of_insertLink {m k : RoleManager} {name role : String} {domain : Option String}
    (h : m.insertLink name role domain = (.ok (), k)) : k = m.withLink name role domain := by
  unfold insertLink at h
  dsimp only at h
  split at h
  · exact (Prod.mk.inj h).2.symm
  · split at h
    · simp at h
    · split at h
      · exact (Prod.mk.inj h).2.symm
      · simp at h

theorem eq_withLink_of_addLink {m k : RoleManager} {name role : String} {domain : Option String}
    (h : m.addLink name role domain = .ok k) : k = m.withLink name role domain := by
  unfold addLink at h
  split at h
  · next l hl => exact Except.ok.inj h ▸ eq_withLink_of_insertLink hl
  · simp at h

/-- Adding a link is refused only where cycles are, and then exactly when the link closes one. -/
theorem WellFormed.insertLink_cases {m : RoleManager} (h : m.WellFormed)
    (ha : m.rejectCycles = true → m.Acyclic) (name role : String) (domain : Option String) :
    (m.insertLink name role domain = (.ok (), m.withLink name role domain) ∧
        (m.rejectCycles = true → (m.withLink name role domain).Acyclic)) ∨
      ((∃ err k, m.insertLink name role domain = (.error err, k)) ∧ m.rejectCycles = true ∧
        ¬ (m.withLink name role domain).Acyclic) := by
  unfold insertLink
  dsimp only
  by_cases hr : m.rejectCycles = true
  · have hacyclic := ha hr
    rw [if_neg (by simp [hr]), hacyclic.withLink_iff]
    by_cases hself : name = role
    · subst hself
      rw [if_pos rfl]
      exact Or.inr ⟨⟨_, _, rfl⟩, hr, LinkGraph.not_acyclic_link .refl⟩
    · rw [if_neg hself]
      rcases (h.graphs (domainKey domain)).path?_link_cases (hacyclic _) name role with
        ⟨hnone, hlink⟩ | ⟨⟨chain, hchain⟩, hlink⟩
      · rw [graphAt] at hnone
        exact Or.inl ⟨by rw [hnone]; rfl, fun _ => hlink⟩
      · rw [graphAt] at hchain
        exact Or.inr ⟨⟨_, _, by rw [hchain]⟩, hr, hlink⟩
  · exact Or.inl ⟨if_pos (by simpa using hr), fun hr' => absurd hr' hr⟩

theorem WellFormed.addLink_cases {m : RoleManager} (h : m.WellFormed)
    (ha : m.rejectCycles = true → m.Acyclic) (name role : String) (domain : Option String) :
    (m.addLink name role domain = .ok (m.withLink name role domain) ∧
        (m.rejectCycles = true → (m.withLink name role domain).Acyclic)) ∨
      ((∃ err, m.addLink name role domain = .error err) ∧ m.rejectCycles = true ∧
        ¬ (m.withLink name role domain).Acyclic) := by
  unfold addLink
  rcases h.insertLink_cases ha name role domain with ⟨hok, hlink⟩ | ⟨⟨err, k, herr⟩, hlink⟩
  · exact Or.inl ⟨by rw [hok], hlink⟩
  · exact Or.inr ⟨⟨err, by rw [herr]⟩, hlink⟩

/-- A refused link leaves the manager as it was: its domains and their order, their nodes, and the links
at both ends with their order. -/
theorem insertLink_error {m k : RoleManager} {name role : String} {domain : Option String}
    {err : RoleError} (h : m.insertLink name role domain = (.error err, k)) : k = m := by
  unfold insertLink at h
  dsimp only at h
  split at h
  · simp at h
  · split at h
    · exact (Prod.mk.inj h).2.symm
    · next hne =>
      split at h
      · simp at h
      · rw [← (Prod.mk.inj h).2, LinkGraph.restore_link _ hne, Table.put_put]
        by_cases hkey : m.domains.contains (domainKey domain) = true
        · obtain ⟨g, hg⟩ := Option.isSome_iff_exists.1 hkey
          rw [if_pos hkey, hg, Option.getD_some, Table.put_of_find hg]
        · rw [if_neg hkey, Table.remove_put (mt (Table.contains_iff _ _).2 hkey)]

/-- A link either is added or leaves the manager as it was. -/
theorem insertLink_eq (m : RoleManager) (name role : String) (domain : Option String) :
    m.insertLink name role domain = match m.addLink name role domain with
      | .ok k => (.ok (), k)
      | .error err => (.error err, m) := by
  unfold addLink
  rcases h : m.insertLink name role domain with ⟨_ | _, k⟩
  · rw [insertLink_error h]
  · rfl

theorem WellFormed.link_deleteLink {m : RoleManager} (h : m.WellFormed) (name role : String)
    (domain : Option String) (key x y : String) :
    (m.deleteLink name role domain).Link key x y ↔
      m.Link key x y ∧ ¬ (key = domainKey domain ∧ x = name ∧ y = role) := by
  unfold Link
  rw [graphAt_deleteLink]
  by_cases hk : domainKey domain = key
  · subst hk
    simp [(h.graphs _).edge_unlink]
  · simp [hk, Ne.symm hk]

theorem WellFormed.deleteLink {m : RoleManager} (h : m.WellFormed) (name role : String)
    (domain : Option String) : (m.deleteLink name role domain).WellFormed where
  distinct := by
    rw [RoleManager.deleteLink, Table.keys_update]
    exact h.distinct
  graphs key := by
    rw [graphAt_deleteLink]
    split
    · exact (h.graphs key).unlink name role
    · exact h.graphs key

@[simp] theorem clear_deleteLink (m : RoleManager) (name role : String) (domain : Option String) :
    (m.deleteLink name role domain).clear = m.clear := rfl

/-- Fewer links have fewer cycles. -/
theorem Acyclic.mono {m k : RoleManager} (h : k.Acyclic)
    (hsub : ∀ key x y, m.Link key x y → k.Link key x y) : m.Acyclic :=
  fun key => (h key).mono (hsub key)

/-! ## Many operations -/

theorem WellFormed.apply {m : RoleManager} (h : m.WellFormed) (operation : Operation) :
    (m.apply operation).WellFormed := by
  cases operation with
  | addLink name role domain =>
    rw [RoleManager.apply, insertLink_eq]
    split
    · next k hk =>
      rw [eq_withLink_of_addLink hk]
      exact h.withLink name role domain
    · exact h
  | deleteLink name role domain => exact h.deleteLink name role domain
  | clear => exact wellFormed_clear m
  | setNameMatch => exact ⟨h.distinct, h.graphs⟩
  | setDomainMatch => exact ⟨h.distinct, h.graphs⟩
  | setMaxLevel => exact ⟨h.distinct, h.graphs⟩
  | rejectCycles => exact ⟨h.distinct, h.graphs⟩

/-- A manager that was built by operations is well formed. -/
theorem wellFormed_run {m : RoleManager} (h : m.WellFormed) (operations : List Operation) :
    (m.run operations).WellFormed := by
  induction operations generalizing m with
  | nil => exact h
  | cons operation rest ih => exact ih (h.apply operation)

/-- A manager that holds no links yet. -/
theorem wellFormed_new (level : Nat) : ({ maxLevel := level } : RoleManager).WellFormed :=
  ⟨List.nodup_nil, fun _ => LinkGraph.wellFormed_empty⟩

end RoleManager

end AccessControl
