import AccessControl.Proofs.Enforcer.Tracking
import AccessControl.Proofs.Enforcer.Valid
/-!
# Rebuilding links

A rebuild drops the links of all managers and adds those of the stored rows, definition after definition,
until a row is refused.  So the managers up to the first definition that does not fit follow their rows, and
when the rebuild goes through all of them do.

    e.TakesRoleRows other for all other up to name → e.buildLinks = (result, k) → k.LinksAgree other
                                                                       (`linksAgree_buildLinks`)
    e.install m = (.ok (), k) → k.LinksAgree name                      (`linksAgree_install_ok`)
    e.install m = (.error err, k) → k.managers = (e.buildLinks).2.managers
                                                                       (`managers_install_error`)
    e.setManager name m = (.ok (), k) → k.LinksAgree name              (`linksAgree_setManager`)
-/

namespace AccessControl

/-- The names up to a given one, in order. -/
def upTo (name : String) : List String → List String
  | [] => []
  | key :: rest => if key = name then [key] else key :: upTo name rest

theorem upTo_prefix (name : String) (keys : List String) : ∃ rest, keys = upTo name keys ++ rest := by
  induction keys with
  | nil => exact ⟨[], rfl⟩
  | cons key rest ih =>
    unfold upTo
    split
    · exact ⟨rest, rfl⟩
    · obtain ⟨post, hpost⟩ := ih
      exact ⟨post, congrArg (key :: ·) hpost⟩

theorem mem_upTo_self {name : String} {keys : List String} (h : name ∈ keys) : name ∈ upTo name keys := by
  induction keys with
  | nil => simp at h
  | cons key rest ih =>
    unfold upTo
    split
    · next heq => simp [heq]
    · next hne =>
      rcases List.mem_cons.1 h with rfl | hrest
      · exact absurd rfl hne
      · exact List.mem_cons_of_mem _ (ih hrest)

/-- The names of the role definitions. -/
def Model.roleNames (m : Model) : List String := (m.definitions "g").map (·.key)

theorem Model.Named.mem_roleNames {m : Model} (h : m.Named) (name : String) :
    name ∈ m.roleNames ↔ ∃ d, m.find? "g" name = some d := by
  unfold roleNames
  rw [List.mem_map]
  constructor
  · rintro ⟨d, hd, rfl⟩
    exact ⟨d, (h.mem_definitions "g" d).1 hd⟩
  · rintro ⟨d, hd⟩
    have hkey := h.key "g" name d hd
    exact ⟨d, (h.mem_definitions "g" d).2 (by rwa [hkey]), hkey⟩

theorem Model.roleNames_of_bare {m k : Model} (h : k.bare = m.bare) : k.roleNames = m.roleNames := by
  have hdefs := congrArg (fun x : Model => (x.definitions "g").map fun d => d.key) h
  simpa [roleNames, Model.definitions_bare, Function.comp_def, Definition.bare] using hdefs

namespace Enforcer

variable {σ : Type} {name : String}

/-- The names of the role definitions up to a given one, in the order in which links are built. -/
def namesUpTo (e : Enforcer σ) (name : String) : List String := upTo name e.model.roleNames

/-- Every role definition has a manager. -/
def Managed (e : Enforcer σ) : Prop := ∀ name ∈ e.model.roleNames, name ∈ e.managers.keys

/-- The manager of a role definition takes all its rows. -/
def TakesRoleRows (e : Enforcer σ) (name : String) : Prop :=
  ∀ d m, e.model.find? "g" name = some d → e.managers.find name = some m →
    (∀ row ∈ d.rows, ∃ l, linkOf? row = some l) ∧ (m.rejectCycles = true → RowsAcyclic d.rows)

/-- If a role definition has at most three fields, its manager follows its rows. -/
def LinksAgree (e : Enforcer σ) (name : String) : Prop :=
  ∀ d, e.model.find? "g" name = some d → d.fields.length ≤ 3 →
    ∃ settings, e.Tracks name settings d.rows

theorem SameSetup.namesUpTo {e k : Enforcer σ} (h : e.SameSetup k) (name : String) :
    k.namesUpTo name = e.namesUpTo name := by
  unfold Enforcer.namesUpTo
  rw [Model.roleNames_of_bare h.model.bare]

theorem SameSetup.managed {e k : Enforcer σ} (h : e.SameSetup k) (he : e.Managed) : k.Managed := by
  unfold Managed
  rw [Model.roleNames_of_bare h.model.bare, h.keys]
  exact he

/-- Agreement is about one definition and its manager. -/
theorem LinksAgree.of_find {e k : Enforcer σ} (h : e.LinksAgree name)
    (hmodel : k.model.find? "g" name = e.model.find? "g" name)
    (hmanagers : k.managers.find name = e.managers.find name) : k.LinksAgree name := by
  unfold LinksAgree Tracks
  rw [hmodel, hmanagers]
  exact h

theorem LinksAgree.of_eq {e k : Enforcer σ} (h : e.LinksAgree name) (hmodel : k.model = e.model)
    (hmanagers : k.managers = e.managers) : k.LinksAgree name :=
  h.of_find (by rw [hmodel]) (by rw [hmanagers])

theorem Tracked.agrees {e : Enforcer σ} {settings : RoleManager} (h : e.Tracked name settings) :
    e.LinksAgree name := by
  obtain ⟨d, hd, htracks⟩ := h
  intro other hother _
  rw [hd] at hother
  exact ⟨settings, Option.some.inj hother ▸ htracks⟩

/-! ## All links -/

/-- What a manager that held no links makes of the rows of a definition that fits. -/
theorem tracks_buildLinks {e k : Enforcer σ} (hnamed : e.model.Named) (hmanaged : e.Managed)
    (hfits : ∀ other ∈ e.namesUpTo name, e.TakesRoleRows other) {result : Except Error Unit}
    (h : e.buildLinks = (result, k)) : ∀ other ∈ e.namesUpTo name, ∀ d,
      e.model.find? "g" other = some d → ∃ settings, k.Tracks other settings d.rows := by
  obtain ⟨post, hpost⟩ := upTo_prefix name e.model.roleNames
  obtain ⟨front, rest, hdefs, hfront, -⟩ := List.map_eq_append_iff.1 hpost
  have hfound : ∀ x ∈ front, e.model.find? "g" x.key = some x := fun x hx =>
    (hnamed.mem_definitions "g" x).1 (hdefs ▸ List.mem_append_left rest hx)
  have hnames : e.namesUpTo name = front.map (·.key) := hfront.symm
  rw [hnames] at hfits ⊢
  have hsound := RoleManagers.allSound_clear e.managers
  have hnodup : ((front ++ rest).map (·.key)).Nodup := hdefs ▸ hnamed.nodup_keys "g"
  have hfollows := RoleManagers.follows_addRows hsound hnodup
    (fun _ _ _ hm => RoleManagers.follows_of_find_clear hm)
    (fun x hx => by
      have hkey : x.key ∈ e.managers.keys :=
        hmanaged x.key ((hnamed.mem_roleNames x.key).2 ⟨x, hfound x hx⟩)
      obtain ⟨m, hm⟩ := Table.exists_find hkey
      obtain ⟨hlinked, ha⟩ := hfits x.key (List.mem_map_of_mem hx) x m (hfound x hx) hm
      exact ⟨m.clear, by rw [Table.find_mapValues, hm]; rfl, hlinked, ha⟩)
  unfold buildLinks Model.addLinks at h
  rw [hdefs] at h
  rw [← (Prod.mk.inj h).2]
  intro other hother d hd
  obtain ⟨x, hx, rfl⟩ := List.mem_map.1 hother
  obtain ⟨m, hm, hrows⟩ := hfollows x hx
  have hxd : x = d := Option.some.inj ((hfound x hx).symm.trans hd)
  subst hxd
  exact ⟨m.clear, m, hm, rfl, hsound.addRows (front ++ rest) x.key m hm, hrows⟩

theorem linksAgree_buildLinks {e k : Enforcer σ} (hnamed : e.model.Named) (hmanaged : e.Managed)
    (hfits : ∀ other ∈ e.namesUpTo name, e.TakesRoleRows other) {result : Except Error Unit}
    (h : e.buildLinks = (result, k)) : ∀ other ∈ e.namesUpTo name, k.LinksAgree other := by
  have hmodel : k.model = e.model := by rw [← (Prod.mk.inj h).2]
  intro other hother d hd _
  rw [hmodel] at hd
  exact tracks_buildLinks hnamed hmanaged hfits h other hother d hd

/-- A rebuild that goes through makes all managers follow their rows. -/
theorem tracks_buildLinks_ok {e k : Enforcer σ} (hnamed : e.model.Named)
    (h : e.buildLinks = (.ok (), k)) (name : String) (d : Definition)
    (hd : e.model.find? "g" name = some d) : ∃ settings, k.Tracks name settings d.rows := by
  have hsound := RoleManagers.allSound_clear e.managers
  unfold buildLinks Model.addLinks at h
  obtain ⟨hok, rfl⟩ := Prod.mk.inj h
  have hrun := Prod.ext (y := (Except.ok (), _)) hok rfl
  have hkey := hnamed.key "g" name d hd
  obtain ⟨m, hm, hrows⟩ := RoleManagers.follows_addRows_ok hsound (hnamed.nodup_keys "g")
    (fun _ _ _ hm => RoleManagers.follows_of_find_clear hm) hrun d
    ((hnamed.mem_definitions "g" d).2 (by rwa [hkey]))
  rw [hkey] at hm
  exact ⟨m.clear, m, hm, rfl, hsound.addRows _ name m hm, hrows⟩

theorem linksAgree_buildLinks_ok {e k : Enforcer σ} (hnamed : e.model.Named)
    (h : e.buildLinks = (.ok (), k)) (name : String) : k.LinksAgree name := by
  have hmodel : k.model = e.model := by rw [← (Prod.mk.inj h).2]
  intro d hd _
  rw [hmodel] at hd
  exact tracks_buildLinks_ok hnamed h name d hd

/-- The definitions with at most three fields that are followed fit. -/
theorem takesRoleRows_of_linksAgree {e : Enforcer σ} (hmodel : e.model.WellFormed) (h : e.LinksAgree name)
    (hwide : ∀ d m, e.model.find? "g" name = some d → e.managers.find name = some m →
      3 < d.fields.length → m.rejectCycles = true → RowsAcyclic d.rows) : e.TakesRoleRows name := by
  intro d m hd hm
  by_cases hnarrow : d.fields.length ≤ 3
  · obtain ⟨settings, htracks⟩ := h d hd hnarrow
    refine ⟨htracks.linked, fun hr => htracks.rowsAcyclic ?_⟩
    obtain ⟨l, hl, rfl, -⟩ := htracks
    rw [hl] at hm
    rwa [← Option.some.inj hm] at hr
  · have hlong := Nat.lt_of_not_le hnarrow
    refine ⟨fun row hrow => linkOf?_isSome ?_, hwide d m hd hm hlong⟩
    rw [(hmodel.tidy "g" name d hd).arity row hrow]
    omega

/-! ## Loads -/

theorem linksAgree_install_ok {e k : Enforcer σ} {m : Model} (hm : m.Named)
    (hauto : e.config.autoLinks = true) (h : e.install m = (.ok (), k)) (name : String) :
    k.LinksAgree name := by
  unfold install at h
  rw [if_pos hauto] at h
  split at h
  · next hlinks =>
    rw [← (Prod.mk.inj h).2]
    exact linksAgree_buildLinks_ok (hm.of_bare (evolves_sorted m).bare) hlinks name
  · simp at h

/-- A model that is not taken leaves the rows there, with the links that a rebuild gives them. -/
theorem managers_install_error {e k : Enforcer σ} {m : Model} (hauto : e.config.autoLinks = true)
    {err : Error} (h : e.install m = (.error err, k)) :
    k.model = e.model ∧ k.managers = e.buildLinks.2.managers := by
  unfold install at h
  rw [if_pos hauto] at h
  split at h
  · simp at h
  · next l hlinks =>
    obtain ⟨-, rfl⟩ := Prod.mk.inj h
    refine ⟨rfl, ?_⟩
    have hclears := (sameSetup_buildLinks hlinks).managers
    unfold buildLinks
    dsimp only at hclears ⊢
    rw [hclears]

/-! ## One manager -/

/-- A manager that takes all rows of its definition follows them. -/
theorem linksAgree_setManager {e k : Enforcer σ} {m : RoleManager} {result : Except Error Unit}
    (hok : ∀ d, e.model.find? "g" name = some d → d.fields.length ≤ 3 → result = .ok ())
    (h : e.setManager name m = (result, k)) : k.LinksAgree name := by
  rcases hrun : m.clear.applyRows .add (e.model.rows "g" name) with ⟨r, l⟩
  rw [setManager_eq hrun] at h
  obtain ⟨rfl, rfl⟩ := Prod.mk.inj h
  intro d hd hnarrow
  have hd : e.model.find? "g" name = some d := hd
  rw [hok d hd hnarrow, Model.rows_of_find? hd] at hrun
  exact ⟨l.clear, l, Table.find_put_self _ _ _, rfl, m.sound_clear.applyRows hrun,
    m.follows_clear.add m.sound_clear hrun⟩

/-- A manager that refuses cycles only where the one before does takes the rows that one follows. -/
theorem setManager_ok {e : Enforcer σ} {m l : RoleManager} (h : m.Follows (e.model.rows "g" name))
    (hm : m.Sound) (hl : l.rejectCycles = m.rejectCycles) :
    ∃ k, e.setManager name l = (.ok (), k) := by
  obtain ⟨x, hx, -⟩ := l.follows_clear.add_ok l.sound_clear h.linked fun hr =>
    h.rowsAcyclic hm (hl.symm.trans hr)
  exact ⟨_, setManager_eq hx⟩

/-- A manager that compares names in another way still takes the rows. -/
theorem linksAgree_changeManager {e k : Enforcer σ} (he : e.LinksAgree name) {f : RoleManager → RoleManager}
    (hf : ∀ m, (f m).rejectCycles = m.rejectCycles) {result : Except Error Unit}
    (h : e.changeManager name f = (result, k)) : k.LinksAgree name := by
  unfold changeManager at h
  split at h
  · rw [← (Prod.mk.inj h).2]
    exact he
  · next m hm =>
    have hset : e.setManager name (f m) = (result, k) := h
    refine linksAgree_setManager (fun d hd hnarrow => ?_) hset
    obtain ⟨settings, l, hl, -, hsound, hfollows⟩ := he d hd hnarrow
    obtain rfl : m = l := Option.some.inj (hm.symm.trans hl)
    rw [← Model.rows_of_find? hd] at hfollows
    obtain ⟨x, hx⟩ := setManager_ok hfollows hsound (hf m)
    exact (Prod.mk.inj (hset.symm.trans hx)).1

/-- The other managers stay. -/
theorem setManager_frame {e k : Enforcer σ} {m : RoleManager} {result : Except Error Unit}
    (h : e.setManager name m = (result, k)) :
    k.model = e.model ∧ k.config = e.config ∧
      ∀ other, other ≠ name → k.managers.find other = e.managers.find other := by
  rw [setManager_eq rfl] at h
  obtain ⟨-, rfl⟩ := Prod.mk.inj h
  refine ⟨rfl, rfl, fun other hne => ?_⟩
  exact (Table.find_put_of_ne _ _ (Ne.symm hne)).trans (Table.find_put_of_ne _ _ (Ne.symm hne))

/-- A definition that has a manager still has one. -/
theorem managed_setManager {e k : Enforcer σ} {m : RoleManager} (he : e.Managed)
    {result : Except Error Unit} (h : e.setManager name m = (result, k)) : k.Managed := by
  rw [setManager_eq rfl] at h
  obtain ⟨-, rfl⟩ := Prod.mk.inj h
  intro other hother
  show other ∈ Table.keys (Table.put _ _ _)
  rw [Table.keys_put, Table.keys_put, mem_addNew, mem_addNew]
  exact Or.inl (Or.inl (he other hother))

/-! ## No links at all -/

theorem linksAgree_clear [PolicyStore σ] {e k : Enforcer σ} (he : e.LinksAgree name)
    {result : Except Error Unit} (h : e.clear = (result, k)) : k.LinksAgree name := by
  unfold clear at h
  split at h
  · next hpersist =>
    obtain ⟨store, rfl⟩ := persist_eq hpersist
    rw [← (Prod.mk.inj h).2]
    exact he.of_eq rfl rfl
  · next hpersist =>
    obtain ⟨store, rfl⟩ := persist_eq hpersist
    rw [← (Prod.mk.inj h).2]
    intro d hd hnarrow
    dsimp only at hd
    rw [Model.find?_clear _ (Or.inr rfl)] at hd
    obtain ⟨old, hold, rfl⟩ := Option.map_eq_some_iff.1 hd
    obtain ⟨settings, m, hm, -⟩ := he old hold hnarrow
    refine ⟨m.clear, m.clear, ?_, rfl, m.sound_clear, m.follows_clear⟩
    dsimp only
    rw [Table.find_mapValues, hm]
    rfl

end Enforcer

end AccessControl
