import AccessControl.Proofs.Roles.ArenaPaths
import AccessControl.Proofs.Roles.Managers
/-!
# Managers by id

The arenas of all domains do what a manager does: they accept and refuse the same links, with the same chain
of names, and what they hold is the same by names.  A link that is tried and refused leaves them as they were.

    a refused link is taken back without a trace                       (`AllValid.insertLink_error`)
    the answers and the links of `insertLink` are those by names       (`AllValid.insertLink`)
    without matching, direct roles and users are those by names        (`AllValid.roles_eq`)
-/

namespace AccessControl

namespace Arenas

/-- The arenas of all domains are valid. -/
def AllValid (arenas : Arenas) : Prop := ∀ key arena, arenas.find key = some arena → arena.Valid

theorem allValid_empty : Arenas.AllValid [] := by simp [AllValid]

variable {arenas : Arenas}

theorem AllValid.put (h : arenas.AllValid) (key : String) {arena : Arena} (ha : arena.Valid) :
    Arenas.AllValid (arenas.put key arena) := by
  intro other found hfound
  rw [Table.find_put] at hfound
  split at hfound
  · rw [← Option.some.inj hfound]
    exact ha
  · exact h other found hfound

theorem AllValid.getD (h : arenas.AllValid) (key : String) : ((arenas.find key).getD {}).Valid := by
  cases hfind : arenas.find key with
  | none => exact Arena.valid_empty
  | some arena => exact h key arena hfind

theorem find_view (arenas : Arenas) (key : String) : arenas.view.find key = (arenas.find key).map Arena.view := by
  induction arenas with
  | nil => rfl
  | cons e rest ih =>
    obtain ⟨other, arena⟩ := e
    by_cases h : other = key
    · simp [view, Table.find, h]
    · simpa [view, Table.find, h] using ih

theorem getD_view (arenas : Arenas) (key : String) :
    (arenas.view.find key).getD {} = ((arenas.find key).getD {}).view := by
  rw [find_view]
  cases arenas.find key <;> rfl

theorem view_put (arenas : Arenas) (key : String) (arena : Arena) :
    Arenas.view (arenas.put key arena) = arenas.view.put key arena.view := by
  induction arenas with
  | nil => rfl
  | cons e rest ih =>
    obtain ⟨other, found⟩ := e
    by_cases h : other = key
    · simp [view, Table.put, h]
    · simpa [view, Table.put, h] using ih

theorem view_update {key : String} {f : Arena → Arena} {F : LinkGraph → LinkGraph}
    (hf : ∀ arena, arenas.find key = some arena → (f arena).view = F arena.view) :
    Arenas.view (arenas.update key f) = arenas.view.update key F := by
  induction arenas with
  | nil => rfl
  | cons e rest ih =>
    obtain ⟨other, arena⟩ := e
    by_cases h : other = key
    · have harena := hf arena (by simp [Table.find, h])
      simp [view, Table.update, h, harena]
    · have hrest := ih fun found hfound => hf found (by simpa [Table.find, h] using hfound)
      simpa [view, Table.update, h] using hrest

/-- Dropping a link by ids is dropping it by names, in all domains. -/
theorem AllValid.deleteLink (h : arenas.AllValid) {m : RoleManager} (hm : m.domains = arenas.view)
    (name role : String) (domain : Option String) :
    (arenas.deleteLink name role domain).AllValid ∧
      (m.deleteLink name role domain).domains = (arenas.deleteLink name role domain).view := by
  constructor
  · intro key arena hfound
    rw [Arenas.deleteLink, Table.find_update] at hfound
    split at hfound
    · obtain ⟨old, hold, rfl⟩ := Option.map_eq_some_iff.1 hfound
      exact ((h key old hold).unlink name role).1
    · exact h key arena hfound
  · unfold RoleManager.deleteLink Arenas.deleteLink
    rw [hm]
    exact (view_update (F := fun g => g.unlink name role) fun arena harena =>
      ((h _ arena harena).unlink name role).2).symm

/-- A link that is tried and taken back leaves all arenas as they were. -/
theorem AllValid.insertLink_error (h : arenas.AllValid) (key name role : String) :
    let arena := (arenas.find key).getD {}
    let restored := (arenas.put key (arena.link name role).2.2).put key
      ((arena.link name role).2.2.restore (arena.checkpoint name role))
    (if arenas.contains key then restored else restored.remove key) = arenas := by
  intro arena restored
  have hrestored : restored = arenas.put key arena := by
    rw [show restored = (arenas.put key _).put key _ from rfl, (h.getD key).restore_link, Table.put_put]
  rw [hrestored]
  split
  · next hkey =>
    obtain ⟨found, hfound⟩ := Option.isSome_iff_exists.1 hkey
    rw [show arena = found by simp [arena, hfound], Table.put_of_find hfound]
  · next hkey => rw [Table.remove_put (mt (Table.contains_iff _ _).2 hkey)]

/-- Adding a link by ids is adding it by names: it is accepted or refused alike, with the same chain of
names, and what is held afterwards is the same. -/
theorem AllValid.insertLink (h : arenas.AllValid) {m : RoleManager} (hm : m.domains = arenas.view)
    (name role : String) (domain : Option String) :
    (arenas.insertLink m.rejectCycles name role domain).2.AllValid ∧
      (m.insertLink name role domain).1 = (arenas.insertLink m.rejectCycles name role domain).1 ∧
      (m.insertLink name role domain).2.domains =
        (arenas.insertLink m.rejectCycles name role domain).2.view := by
  have harena := h.getD (RoleManager.domainKey domain)
  obtain ⟨hlinked, hview, hsource, htarget⟩ := harena.link name role
  have hgraph : (m.domains.find (RoleManager.domainKey domain)).getD {} =
      ((arenas.find (RoleManager.domainKey domain)).getD {}).view := by rw [hm, getD_view]
  have htried : m.domains.put (RoleManager.domainKey domain)
      (((m.domains.find (RoleManager.domainKey domain)).getD {}).link name role) =
      Arenas.view (arenas.put (RoleManager.domainKey domain)
        (((arenas.find (RoleManager.domainKey domain)).getD {}).link name role).2.2) := by
    rw [view_put, hgraph, hview, hm]
  have hput := h.put (RoleManager.domainKey domain) hlinked
  rcases hinsert : m.insertLink name role domain with ⟨answer, k⟩
  have hkept : ∀ e, answer = .error e → k = m := by
    rintro e rfl
    exact RoleManager.insertLink_error hinsert
  unfold RoleManager.insertLink at hinsert
  unfold Arenas.insertLink
  dsimp only at hinsert ⊢
  split at hinsert
  · next hoff =>
    rw [if_pos hoff]
    obtain ⟨rfl, rfl⟩ := Prod.mk.inj hinsert
    exact ⟨hput, rfl, htried⟩
  · next hon =>
    rw [if_neg hon]
    split at hinsert
    · next heq =>
      rw [if_pos heq]
      obtain ⟨rfl, rfl⟩ := Prod.mk.inj hinsert
      exact ⟨h, rfl, hm⟩
    · next hne =>
      rw [if_neg hne]
      obtain ⟨hsourceLt, hsourceName⟩ := hlinked.id?_eq_some.1 hsource
      obtain ⟨htargetLt, htargetName⟩ := hlinked.id?_eq_some.1 htarget
      have hpath := hlinked.map_path htargetLt hsourceLt
      rw [hsourceName, htargetName, hview, ← hgraph] at hpath
      split at hinsert
      · next hnone =>
        rw [hnone] at hpath
        rw [Option.map_eq_none_iff.1 hpath]
        obtain ⟨rfl, rfl⟩ := Prod.mk.inj hinsert
        exact ⟨hput, rfl, htried⟩
      · next chain hchain =>
        rw [hchain] at hpath
        obtain ⟨cycle, hcycle, rfl⟩ := Option.map_eq_some_iff.1 hpath
        rw [hcycle]
        dsimp only
        rw [h.insertLink_error]
        have hanswer := (Prod.mk.inj hinsert).1
        exact ⟨h, hanswer.symm, by rw [hkept _ hanswer.symm, hm]⟩

section

variable {m : RoleManager}

theorem visible_eq (hm : m.domains = arenas.view) (hdomain : m.domainMatch = none) (domain : Option String) :
    m.visible domain = (arenas.find (RoleManager.domainKey domain)).toList.map Arena.view := by
  have hfind : (m.domains.find (RoleManager.domainKey domain)).toList =
      (arenas.find (RoleManager.domainKey domain)).toList.map Arena.view := by
    rw [hm, find_view]
    cases arenas.find (RoleManager.domainKey domain) <;> rfl
  unfold RoleManager.visible
  rw [hdomain]
  cases domain <;> exact hfind

/-- Without matching, the direct roles by ids are those by names. -/
theorem AllValid.roles_eq (h : arenas.AllValid) (hm : m.domains = arenas.view) (hname : m.nameMatch = none)
    (hdomain : m.domainMatch = none) (name : String) (domain : Option String) :
    arenas.roles name domain = m.roles name domain := by
  unfold roles neighbours RoleManager.roles RoleManager.rolesFrom
  rw [visible_eq hm hdomain, hname, List.flatMap_map]
  refine congrArg distinct (List.flatMap_congr fun a ha => ?_)
  have hnames : ∀ n, (a.viewNode n).roles = n.roles.map a.name := fun _ => rfl
  exact (h _ a (Option.mem_toList.1 ha)).flatMap_links hnames name

/-- Without matching, the direct users by ids are those by names. -/
theorem AllValid.users_eq (h : arenas.AllValid) (hm : m.domains = arenas.view) (hname : m.nameMatch = none)
    (hdomain : m.domainMatch = none) (name : String) (domain : Option String) :
    arenas.users name domain = m.users name domain := by
  unfold users neighbours RoleManager.users RoleManager.usersFrom
  rw [visible_eq hm hdomain, hname, List.flatMap_map]
  refine congrArg distinct (List.flatMap_congr fun a ha => ?_)
  have hnames : ∀ n, (a.viewNode n).users = n.users.map a.name := fun _ => rfl
  exact (h _ a (Option.mem_toList.1 ha)).flatMap_links hnames name

end

end Arenas

end AccessControl
