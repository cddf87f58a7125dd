import AccessControl.Proofs.Enforcer.Rebuilds
import AccessControl.Proofs.Roles.Inheritance
/-!
# Enforcers whose links are those of their rows

An enforcer is consistent when every manager holds exactly the links of the rows of its definition.  What
the managers then answer is settled by the rows: it stays the same as long as the settings of the managers
and the rows do, however the links were dropped and added in between.

    e.Consistent → k.Consistent → the same rows → the same answers     (`Consistent.hasLink?_eq`)
    e.Consistent → a rebuild follows the rows of e                     (`Consistent.follows_buildLinks`)
-/

namespace AccessControl

/-- Sound managers with the same settings that follow the same rows answer alike. -/
theorem RoleManager.Follows.hasLink_eq {m k : RoleManager} {rows : List Row} (h : m.Follows rows)
    (h' : k.Follows rows) (hm : m.Sound) (hk : k.Sound) (hclear : k.clear = m.clear) (a b : String)
    (domain : Option String) : k.hasLink a b domain = m.hasLink a b domain := by
  have hlevel : k.clear.maxLevel = m.clear.maxLevel := by rw [hclear]
  have hname : k.clear.nameMatch = m.clear.nameMatch := by rw [hclear]
  have hdomain : k.clear.domainMatch = m.clear.domainMatch := by rw [hclear]
  exact hm.hasLink_eq hk.toWellFormed hlevel hname hdomain
    (fun key x y => (h'.link_iff key x y).trans (h.link_iff key x y).symm) a b domain

namespace Enforcer

variable {σ : Type}

/-- What the manager of a definition answers, if there is one. -/
def hasLink? (e : Enforcer σ) (definition a b : String) (domain : Option String) : Option Bool :=
  (e.managers.find definition).map fun m => m.hasLink a b domain

/-- Every role definition has a manager, and every manager holds the links of the rows of its definition
and no others. -/
structure Consistent (e : Enforcer σ) : Prop where
  managed : e.Managed
  follows : ∀ name m, e.managers.find name = some m → m.Follows (e.model.rows "g" name)

/-- Consistent enforcers with the same rows answer alike, when one came from the other. -/
theorem Consistent.hasLink?_eq {e k : Enforcer σ} (h : e.Consistent) (h' : k.Consistent)
    (hsound : e.managers.AllSound) (hk : e.SameSetup k) (hmodel : k.model = e.model) (name a b : String)
    (domain : Option String) : k.hasLink? name a b domain = e.hasLink? name a b domain := by
  unfold hasLink?
  cases hm : k.managers.find name with
  | none =>
    have hnone : e.managers.find name = none := by
      rw [Table.find_eq_none_iff, ← hk.keys, ← Table.find_eq_none_iff]
      exact hm
    rw [hnone]
  | some m =>
    obtain ⟨old, hold, hclear⟩ := hk.find_manager hm
    have hfollows := h'.follows name m hm
    rw [hmodel] at hfollows
    rw [hold]
    exact congrArg some ((h.follows name old hold).hasLink_eq hfollows (hsound name old hold)
      (hk.sound hsound name m hm) hclear a b domain)

/-- The rows of every definition can be linked anew. -/
theorem Consistent.fits {e : Enforcer σ} (h : e.Consistent) (hsound : e.managers.AllSound)
    (name : String) : e.TakesRoleRows name := by
  intro d m hd hm
  have hfollows := h.follows name m hm
  rw [Model.rows_of_find? hd] at hfollows
  exact ⟨hfollows.linked, fun hr => hfollows.rowsAcyclic (hsound name m hm) hr⟩

/-! ## Rebuilds -/

/-- What a manager holds after a rebuild that reaches its definition, if it has one. -/
theorem follows_of_buildLinks {e : Enforcer σ} (hnamed : e.model.Named) {name : String}
    (hreached : ∀ d, e.model.find? "g" name = some d →
      ∃ k, e.buildLinks.2.managers.find name = some k ∧ k.Follows d.rows)
    {m : RoleManager} (hm : e.buildLinks.2.managers.find name = some m) :
    m.Follows (e.model.rows "g" name) := by
  cases hd : e.model.find? "g" name with
  | some d =>
    obtain ⟨k, hk, hfollows⟩ := hreached d hd
    rw [Model.rows_of_find? hd, Option.some.inj (hm.symm.trans hk)]
    exact hfollows
  | none =>
    -- a manager without a definition lost its links and got none
    have hname : name ∉ e.model.roleNames := by
      rw [hnamed.mem_roleNames, hd]
      simp
    have hfound : (e.managers.mapValues RoleManager.clear).find name = some m :=
      (RoleManagers.find_addRows _ hname).symm.trans hm
    rw [Table.find_mapValues] at hfound
    obtain ⟨old, -, rfl⟩ := Option.map_eq_some_iff.1 hfound
    rw [Model.rows, hd]
    exact old.follows_clear

/-- A rebuild gives all managers of a consistent enforcer the links of the rows. -/
theorem Consistent.follows_buildLinks {e : Enforcer σ} (h : e.Consistent) (hvalid : e.Valid)
    (name : String) (m : RoleManager) (hm : e.buildLinks.2.managers.find name = some m) :
    m.Follows (e.model.rows "g" name) := by
  have hnamed := hvalid.model.toNamed
  refine follows_of_buildLinks hnamed (fun d hd => ?_) hm
  have hname := mem_upTo_self ((hnamed.mem_roleNames name).2 ⟨d, hd⟩)
  obtain ⟨-, k, hk, -, -, hfollows⟩ := tracks_buildLinks hnamed h.managed
    (fun other _ => h.fits hvalid.managers other) rfl name hname d hd
  exact ⟨k, hk, hfollows⟩

/-- A rebuild that goes through leaves the enforcer consistent. -/
theorem consistent_buildLinks {e k : Enforcer σ} (hnamed : e.model.Named) (hmanaged : e.Managed)
    (h : e.buildLinks = (.ok (), k)) : k.Consistent := by
  have hsetup := sameSetup_buildLinks h
  have hk : k = e.buildLinks.2 := by rw [h]
  have hmodel : k.model = e.model := by rw [hk]; rfl
  refine ⟨hsetup.managed hmanaged, fun name m hm => ?_⟩
  rw [hk] at hm
  rw [hmodel]
  refine follows_of_buildLinks hnamed (fun d hd => ?_) hm
  obtain ⟨-, x, hx, -, -, hfollows⟩ := tracks_buildLinks_ok hnamed h name d hd
  rw [hk] at hx
  exact ⟨x, hx, hfollows⟩

end Enforcer

end AccessControl
