import AccessControl.Proofs.Enforcer.Consistent
import AccessControl.Proofs.Enforcer.OtherSections
import AccessControl.Proofs.Enforcer.PriorityOrder
import AccessControl.Proofs.Model.PartialRows
import AccessControl.Proofs.Store.Answers
/-!
# Loads of a part of the store

When the lines of a store load, those that a filter accepts load as well: they are fewer lines for the same
definitions, in the same order, and the links of fewer rows close no cycle.  Each definition then has the
rows of the full load that the filter accepts, and each manager their links.

    e.load = (.ok (), k) → every definition fits, and the links are built   (`load_ok`)
    a filtered load goes through where a full one does                      (`loadFiltered_of_load`)
    it gives the accepted rows of the full load                             (`loadFiltered_eq_filter`)
-/

namespace AccessControl

namespace Enforcer

variable {σ : Type}

/-- Where the links of all rows can be built, so can those of a part of them. -/
theorem buildLinks_isPart (e before : Enforcer σ) {full : Enforcer σ} {filter : Filter}
    (hnamed : e.model.Named) (hpart : before.model.Named)
    (hmanagers : before.managers.mapValues RoleManager.clear = e.managers.mapValues RoleManager.clear)
    (h : Model.IsPart filter e.model before.model) (hlinks : e.buildLinks = (.ok (), full)) :
    ∃ part, before.buildLinks = (.ok (), part) := by
  have hsound := RoleManagers.allSound_clear e.managers
  have hrun : RoleManagers.addRows (e.managers.mapValues RoleManager.clear) (e.model.definitions "g") =
      (.ok (), full.managers) := by
    unfold buildLinks Model.addLinks at hlinks
    obtain ⟨hok, rfl⟩ := Prod.mk.inj hlinks
    exact Prod.ext hok rfl
  have hfits := RoleManagers.fits_of_addRows_ok hsound (hnamed.nodup_keys "g")
    (fun _ _ _ hm => RoleManagers.follows_of_find_clear hm) hrun
  obtain ⟨managers, hmanaged⟩ := RoleManagers.addRows_ok hsound (hpart.nodup_keys "g")
    (fun _ _ _ hm => RoleManagers.follows_of_find_clear hm) (fun x hx => by
      have hfound := (hpart.mem_definitions "g" x).1 hx
      obtain ⟨d, hd, hbare⟩ := Model.find?_of_bare h.bare hfound
      obtain ⟨y, hy, -, hrows⟩ := h.find? (Or.inr rfl) hd
      obtain rfl : x = y := Option.some.inj (hfound.symm.trans hy)
      have hkey : d.key = x.key := Definition.key_eq hbare
      obtain ⟨m, hm, hlinked, hacyclic⟩ := hfits d ((hnamed.mem_definitions "g" d).2 (hkey ▸ hd))
      have hsub : ∀ row ∈ x.rows, row ∈ d.rows := fun row hrow =>
        List.mem_of_mem_filter (hrows ▸ hrow)
      exact ⟨m, hkey ▸ hm, fun row hrow => hlinked row (hsub row hrow),
        fun hr => (hacyclic hr).mono hsub⟩)
  refine ⟨{ before with managers }, ?_⟩
  unfold buildLinks Model.addLinks
  rw [hmanagers, hmanaged]

variable [PolicyStore σ]

/-! ## What holds in every state -/

/-- In every state the priority of a definition is the place of its priority field. -/
theorem Reachable.prioritized {allowed : Enforcer σ → Call σ → Prop} {e : Enforcer σ}
    (h : Reachable Made allowed e) : e.model.Prioritized :=
  h.model_of_edits (fun _ hm => hm.prioritized) fun _ _ hedits hm => hm.of_bare hedits.evolves.bare

/-! ## Loads that go through -/

/-- What a load that goes through read, and the rebuild that came after it. -/
theorem load_ok {e k : Enforcer σ} (hauto : e.config.autoLinks = true) (h : e.load = (.ok (), k)) :
    (PolicyStore.read e.store).failure = none ∧
      ∃ l, e.model.clear.addLines (PolicyStore.read e.store).lines = (.ok (), l) ∧
        ({ e with store := PolicyStore.noteLoad e.store false, model := l.sorted } :
          Enforcer σ).buildLinks = (.ok (), k) := by
  unfold load PolicyStore.load PolicyStore.finishLoad at h
  cases hlines : e.model.clear.addLines (PolicyStore.read e.store).lines with
  | mk result l =>
    rw [hlines] at h
    cases result with
    | error err => simp [finishLoad] at h
    | ok =>
      dsimp only at h
      cases hfailure : (PolicyStore.read e.store).failure with
      | some err => simp [hfailure, finishLoad] at h
      | none =>
        rw [hfailure] at h
        dsimp only [finishLoad] at h
        refine ⟨rfl, l, rfl, ?_⟩
        unfold install at h
        dsimp only at h
        rw [if_pos hauto] at h
        split at h
        · next hlinks => rw [hlinks, (Prod.mk.inj h).2]
        · simp at h

theorem loadFiltered_eq {e k : Enforcer σ} (hauto : e.config.autoLinks = true) {filter : Filter}
    {lines : List Line} (hread : PolicyStore.readFiltered e.store filter = { lines }) {l : Model}
    (hlines : e.model.clear.addLines lines = (.ok (), l))
    (hlinks : ({ e with store := PolicyStore.noteLoad e.store true, model := l.sorted } :
      Enforcer σ).buildLinks = (.ok (), k)) : e.loadFiltered filter = (.ok (), k) := by
  unfold loadFiltered PolicyStore.loadFiltered
  rw [hread, PolicyStore.finishLoad_ok hlines rfl]
  dsimp only [finishLoad]
  unfold install
  dsimp only
  rw [if_pos hauto, hlinks]

/-- A filtered load goes through where a full one does, also after it. -/
theorem loadFiltered_of_load [FiltersReads σ] {e before full : Enforcer σ} (hvalid : e.Valid)
    (hprior : e.model.Prioritized) (hmanaged : before.Managed) (hauto : e.config.autoLinks = true)
    (horder : ordersBySubject e.model = false) (hsetup : e.SameSetup before)
    (hread : PolicyStore.read before.store = PolicyStore.read e.store) (hload : e.load = (.ok (), full))
    (filter : Filter) : ∃ part, before.loadFiltered filter = (.ok (), part) ∧
      Model.IsPart filter full.model part.model ∧ part.Consistent := by
  obtain ⟨hend, l, hlines, hlinks⟩ := load_ok hauto hload
  have hbare := hsetup.model.bare
  obtain ⟨m, hm, hpart, hl, hm'⟩ := (Model.isPart_clear filter hbare).addLines
    (hprior.orderly_clear hvalid.model)
    ((hprior.of_bare hbare).orderly_clear (hsetup.model.wellFormed hvalid.model)) hlines
  have hlbare := (Model.evolves_loaded hlines).bare
  have hmbare := (Model.evolves_loaded hm).bare.trans hbare
  -- what comes in order is not sorted again
  have hlsorted : l.sorted = l := hl.inOrder.sorted_eq (hprior.of_bare hlbare) hl.wellFormed.toNamed
    ((Model.ordersBySubject_of_bare hlbare).trans horder)
  have hmsorted : m.sorted = m := hm'.inOrder.sorted_eq (hprior.of_bare hmbare) hm'.wellFormed.toNamed
    ((Model.ordersBySubject_of_bare hmbare).trans horder)
  rw [hlsorted] at hlinks
  let whole : Enforcer σ := { e with store := PolicyStore.noteLoad e.store false, model := l }
  let loaded : Enforcer σ := { before with store := PolicyStore.noteLoad before.store true, model := m }
  obtain ⟨part, hbuild⟩ := buildLinks_isPart whole loaded hl.wellFormed.toNamed
    hm'.wellFormed.toNamed hsetup.managers hpart hlinks
  have hfull : full.model = l := by rw [← (Prod.mk.inj hlinks).2]
  have hmodel : part.model = m := by rw [← (Prod.mk.inj hbuild).2]
  have hloaded : loaded.Managed := by
    have hnames := Model.roleNames_of_bare (Model.evolves_loaded hm).bare
    unfold Managed
    rw [hnames]
    exact hmanaged
  refine ⟨part, ?_, by rw [hfull, hmodel]; exact hpart,
    consistent_buildLinks hm'.wellFormed.toNamed hloaded hbuild⟩
  refine loadFiltered_eq (hsetup.config ▸ hauto) ?_ hm (by rw [hmsorted]; exact hbuild)
  rw [FiltersReads.readFiltered before.store filter (hread ▸ hend), hread]

/-! ## Top theorem (proved from the lemmas above) -/

/-- What a filtered load gives, measured by a full load. -/
structure LoadedPart (filter : Filter) (full part : Enforcer σ) : Prop where
  definitions : part.model.bare = full.model.bare
  policy : ∀ name, part.model.rows "p" name =
    (full.model.rows "p" name).filter fun row => decide (FirstFieldsAre filter.policy row)
  roles : ∀ name, part.model.rows "g" name =
    (full.model.rows "g" name).filter fun row => decide (FirstFieldsAre filter.roles row)
  /-- Every role definition has a manager, and every manager holds the links of the rows of its definition
  and no others. -/
  links : part.Consistent

/-- **A part of the store is a part of its rows.**  In every state that calls lead to from a new enforcer,
whatever they answer, when links follow rows and the default effect does not go by subjects: if the store
loads, a filtered load goes through as well, before the full load and after it, and gives each definition
those rows of the full load that the filter accepts, in their order, and each manager their links.  Stores
in memory and in files are such stores. -/
theorem loadFiltered_eq_filter [FiltersReads σ] {allowed : Enforcer σ → Call σ → Prop}
    {e before full : Enforcer σ} (h : Reachable Made allowed e) (hauto : e.config.autoLinks = true)
    (hdefault : ∀ d, e.model.find? "e" "e" = some d → EffectKind.ofText d.value ≠ .ok .subjectPriority)
    (hload : e.load = (.ok (), full)) (hbefore : before = e ∨ before = full) (filter : Filter) :
    ∃ part, before.loadFiltered filter = (.ok (), part) ∧ LoadedPart filter full part := by
  have hvalid := h.valid fun _ hmade => hmade
  have hmanaged := h.managed fun _ hmade => hmade
  have hsetup : e.SameSetup before := by
    rcases hbefore with rfl | rfl
    · exact SameSetup.refl _
    · exact sameSetup_load hload
  have hread : PolicyStore.read before.store = PolicyStore.read e.store := by
    rcases hbefore with rfl | rfl
    · rfl
    · obtain ⟨-, l, -, hlinks⟩ := load_ok hauto hload
      rw [← (Prod.mk.inj hlinks).2]
      exact FiltersReads.read_noteLoad e.store false
  obtain ⟨part, hrun, hpart, hlinks⟩ := loadFiltered_of_load hvalid h.prioritized
    (hsetup.managed hmanaged) hauto (Model.ordersBySubject_eq_false hdefault) hsetup hread hload filter
  exact ⟨part, hrun, hpart.bare, hpart.rows "p" (Or.inl rfl), hpart.rows "g" (Or.inr rfl), hlinks⟩

/-- A model of policy rows with priorities and of roles. -/
def priorityRoles : Model := .build [.define "r" "r" "sub", .define "p" "p" "priority, sub",
  .define "g" "g" "_, _", .define "e" "e" "priority(p.eft) || deny", .define "m" "m" "r.sub == p.sub"]

/-- Lines that go into a model one after the other. -/
theorem addLines_append {m k : Model} {lines : List Line} (h : m.addLines lines = (.ok (), k))
    (rest : List Line) : m.addLines (lines ++ rest) = k.addLines rest := by
  induction lines generalizing m with
  | nil => rw [← (Prod.mk.inj h).2, List.nil_append]
  | cons line lines ih =>
    rw [Model.addLines] at h
    rw [List.cons_append, Model.addLines]
    split at h
    · exact ih h
    · simp at h

set_option maxRecDepth 20000 in
/-- Of rows that come in as 10, 1 and 5, a filtered load has 5 and 10, and one of two links. -/
theorem loadFiltered_eq_filter_two : ∃ e full part : Enforcer MemoryStore,
    Reachable Made (fun _ _ => True) e ∧ e.load = (.ok (), full) ∧
      full.model.rows "p" "p" = [["1", "bob"], ["5", "ann"], ["10", "ann"]] ∧
      full.model.rows "g" "g" = [["ann", "admin"], ["bob", "admin"]] ∧
      full.loadFiltered ⟨["", "ann"], ["ann"]⟩ = (.ok (), part) ∧
      LoadedPart ⟨["", "ann"], ["ann"]⟩ full part ∧
      part.model.rows "p" "p" = [["5", "ann"], ["10", "ann"]] ∧
      part.model.rows "g" "g" = [["ann", "admin"]] := by
  let ranked : List Row := [["10", "ann"], ["1", "bob"], ["5", "ann"]]
  let held : List Row := [["ann", "admin"], ["bob", "admin"]]
  let lines : List Line := ranked.map ("p" :: ·) ++ held.map ("g" :: ·)
  let start := strict priorityRoles [("g", { rejectCycles := true })]
  let withPolicy := priorityRoles.modify "p" "p" (·.insertAll ranked)
  let model := withPolicy.modify "g" "g" (·.insertAll held)
  let e : Enforcer MemoryStore := { start with store := { lines } }
  have hbuilt : priorityRoles.Built := ⟨_, rfl⟩
  have hinorder : priorityRoles.InOrder := Model.inOrder_build (by simp)
  have hsorted : priorityRoles.sorted = priorityRoles :=
    hinorder.sorted_eq hbuilt.prioritized hbuilt.wellFormed.toNamed rfl
  have hstart : start.load = (.ok (), start) := by
    show start.install priorityRoles = _
    unfold install
    rw [hsorted]
    rfl
  have hmade : start.Made :=
    ⟨priorityRoles, {}, { autoSave := false, rejectCycles := true }, hbuilt, make_of_load rfl hstart⟩
  have h : Reachable Made (fun _ _ => True) e :=
    (Reachable.start hmade).step (.setStore { lines }) trivial
  have hlines : priorityRoles.addLines lines = (.ok (), model) := by
    have hpolicy : priorityRoles.addLines (ranked.map ("p" :: ·)) = (.ok (), withPolicy) :=
      Model.addLines_rows (Or.inl rfl) rfl rfl (Definition.tidy_make "p" "p" "priority, sub")
        (by decide) (by decide) (by decide)
    rw [addLines_append hpolicy]
    exact Model.addLines_rows (Or.inr rfl) rfl rfl (Definition.tidy_make "g" "g" "_, _") (by decide)
      (by decide) (by decide)
  have hmodel : model.sorted = model := by
    have hrows := (hinorder.modify "p" "p" fun _ hd => hd.insertAll ranked).modify "g" "g"
      fun _ hd => hd.insertAll held
    have hbare : model.bare = priorityRoles.bare := by rfl
    exact hrows.sorted_eq (hbuilt.prioritized.of_bare hbare) (hbuilt.wellFormed.toNamed.of_bare hbare) rfl
  let links := (({} : LinkGraph).link "ann" "admin").link "bob" "admin"
  let full : Enforcer MemoryStore :=
    { e with model, managers := [("g", { domains := [(noDomain, links)], rejectCycles := true })] }
  have hload : e.load = (.ok (), full) := by
    show e.finishLoad (PolicyStore.finishLoad e.store false (PolicyStore.read e.store) priorityRoles) = _
    rw [PolicyStore.finishLoad_ok hlines rfl]
    dsimp only [finishLoad]
    unfold install
    rw [hmodel]
    rfl
  obtain ⟨part, hrun, hpart⟩ := loadFiltered_eq_filter h rfl (fun d hd => by
    rw [← Option.some.inj hd]
    simp [show EffectKind.ofText "priority(p.eft) || deny" = .ok .priority from
      EffectKind.ofText_text .priority, Definition.make]) hload (Or.inr rfl) ⟨["", "ann"], ["ann"]⟩
  have hpolicy : full.model.rows "p" "p" = [["1", "bob"], ["5", "ann"], ["10", "ann"]] := by rfl
  have hroles : full.model.rows "g" "g" = [["ann", "admin"], ["bob", "admin"]] := by rfl
  refine ⟨e, full, part, h, hload, hpolicy, hroles, hrun, hpart, ?_, ?_⟩
  · rw [hpart.policy, hpolicy]
    decide
  · rw [hpart.roles, hroles]
    decide

end Enforcer

end AccessControl
