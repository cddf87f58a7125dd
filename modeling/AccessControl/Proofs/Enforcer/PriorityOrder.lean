import AccessControl.Proofs.Enforcer.Edits
import AccessControl.Proofs.Enforcer.Enforcement
/-!
# Rows in the order of their priorities

Where the default effect does not go by subjects, the rows of a policy definition with a priority field are
in the order of their priorities in every state: loads sort them, and every change of rows keeps the order.
So the search for the place of a new row always runs on rows in order, sorting them again does nothing, and
the first matching row that allows or denies is one of least priority.

    m.Edits k → m.InOrder → k.InOrder                                  (`Edits.inOrder`)
    the rows are in order in every state, and decisions go by them     (`rows_by_priority`)
-/

namespace AccessControl

namespace Model

/-- What was loaded is in order. -/
theorem Prioritized.inOrder_sorted {m : Model} (h : m.Prioritized)
    (horder : Enforcer.ordersBySubject m = false) : m.sorted.InOrder := by
  unfold sorted
  dsimp only
  rw [ordersBySubject_of_bare m.bare_sortByPriority, horder, if_neg (by simp)]
  exact h.inOrder_sortByPriority

/-- A model in order stays as it is when it is sorted. -/
theorem InOrder.sorted_eq {m : Model} (h : m.InOrder) (hp : m.Prioritized) (hm : m.Named)
    (horder : Enforcer.ordersBySubject m = false) : m.sorted = m := by
  unfold sorted
  rw [h.sortByPriority_eq hp hm]
  dsimp only
  rw [horder, if_neg (by simp)]

theorem Edits.inOrder {m k : Model} (h : m.Edits k) (hp : m.Prioritized)
    (horder : Enforcer.ordersBySubject m = false) (hm : m.InOrder) : k.InOrder := by
  cases h with
  | same => exact hm
  | @changed operation hop =>
    have hsame := ordersBySubject_of_bare (m.evolves_apply hop).bare
    rw [resorted, hsame, horder, if_neg (by simp)]
    refine hm.apply hp ?_
    rintro rfl
    simp [Operation.onRows] at hop
  | unlinked => exact hm.apply hp (by simp)
  | cleared => exact inOrder_clear hm
  | loaded hlines =>
    have hbare := (evolves_loaded hlines).bare
    exact (hp.of_bare hbare).inOrder_sorted ((ordersBySubject_of_bare hbare).trans horder)

end Model

namespace Enforcer

variable {σ : Type}

/-- A row without a 64-bit number for its priority comes last. -/
theorem rowPriority_unreadable {index : Nat} {row : Row}
    (h : ∀ text n, row[index]? = some text → parseInteger? text = some n →
      Number.fitsInt64 n = false) : rowPriority index row = 2 ^ 63 - 1 := by
  have hlast : lastPriority = 2 ^ 63 - 1 := rfl
  unfold rowPriority
  split
  · next n hn =>
    obtain ⟨text, htext, hread⟩ := Option.bind_eq_some_iff.1 hn
    rw [h text n htext hread, if_neg (by simp), hlast]
  · exact hlast

/-- Where the default effect does not go by subjects, a change of one definition is not followed by a
sort. -/
theorem rows_setRows_modify {e s : Enforcer σ} (horder : ordersBySubject e.model = false) {name : String}
    {d : Definition} (hd : e.model.find? "p" name = some d) (f : Definition → Definition) :
    (s.setRows (e.model.modify "p" name f) true).model.rows "p" name = (f d).rows := by
  rw [setRows_eq, Model.resorted, ordersBySubject_modify e.model (Or.inl rfl), horder,
    if_neg (by simp), Model.rows_of_find? (Model.find?_modify_self hd f)]

/-- Under an effect that goes by priorities, the first matching row in order that allows or denies has the
least priority of these, decides and explains. -/
theorem Valid.decided_by_least {e : Enforcer σ} (hvalid : e.Valid) {ctx : Context}
    {request : List Value} {r d effect matcher : Definition} {program : Program} {index : Nat}
    (hon : e.config.enabled = true) (heffector : e.effector = .standard)
    (hr : e.model.find? "r" ctx.request = some r) (hd : e.model.find? "p" ctx.policy = some d)
    (heffect : e.model.find? "e" ctx.effect = some effect)
    (hkind : EffectKind.ofText effect.value = .ok .priority)
    (hmatcher : e.model.find? "m" ctx.matcher = some matcher)
    (harity : request.length = r.fields.length)
    (hcompile : Program.ofSource e.scope (joinReferences matcher.value) = .ok program)
    (hsorted : Definition.ByPriority index d.rows)
    (hdecides : ∃ row ∈ e.matching r d program request, d.statedEffect row ≠ .indeterminate) :
    ∃ row ∈ e.matching r d program request, d.statedEffect row ≠ .indeterminate ∧
      (∀ other ∈ e.matching r d program request, d.statedEffect other ≠ .indeterminate →
        rowPriority index row ≤ rowPriority index other) ∧
      (e.enforce ctx request).1 = .ok ⟨d.statedEffect row == .allow, [row]⟩ := by
  obtain ⟨row, hrow, hstates⟩ := hdecides
  have hmatching : (e.matching r d program request).Pairwise fun a b =>
      rowPriority index a ≤ rowPriority index b := hsorted.filter _
  obtain ⟨first, hmem, hcounts, hleast, hscan⟩ :=
    fullScan_first (Or.inl rfl) hmatching hrow hstates
  refine ⟨first, hmem, hcounts, fun other hother hcount => ?_, ?_⟩
  · rcases hleast other hother hcount with rfl | hle
    · exact Int.le_refl _
    · exact hle
  · rw [hvalid.enforce_eq hon heffector hr hd heffect hkind hmatcher harity hcompile
      (List.ne_nil_of_mem (List.mem_of_mem_filter hrow)), hscan]

variable [PolicyStore σ]

theorem Reachable.inOrder {e : Enforcer σ}
    (h : Reachable Made (fun _ c => c.keepsDefinitions = true) e)
    (horder : ordersBySubject e.model = false) : e.model.Prioritized ∧ e.model.InOrder := by
  have hall : e.model.Prioritized ∧ (ordersBySubject e.model = false → e.model.InOrder) := by
    refine h.model_induction
      (P := fun m => m.Prioritized ∧ (ordersBySubject m = false → m.InOrder)) (fun _ hmade => hmade)
      (fun e m k lines _ hbuilt hlines _ => ?_) fun m k _ hedits hm => ?_
    · have hevolves := (Model.evolves_loaded hlines).trans (evolves_sorted k)
      have hprior := hbuilt.prioritized.of_bare (Model.evolves_loaded hlines).bare
      refine ⟨hbuilt.prioritized.of_bare hevolves.bare, fun horder => hprior.inOrder_sorted ?_⟩
      rwa [← Model.ordersBySubject_of_bare (evolves_sorted k).bare]
    · have hbare := hedits.evolves.bare
      exact ⟨hm.1.of_bare hbare, fun horder =>
        have hbefore := (Model.ordersBySubject_of_bare hbare).symm.trans horder
        hedits.inOrder hm.1 hbefore (hm.2 hbefore)⟩
  exact ⟨hall.1, hall.2 horder⟩

/-! ## Top theorem (proved from the lemmas above) -/

/-- What can be relied on for a policy definition with a priority field, whose place is `index`. -/
structure PriorityOrder (e : Enforcer σ) (name : String) (d : Definition) (index : Nat) : Prop where
  sorted : d.rows.Pairwise fun a b => rowPriority index a ≤ rowPriority index b
  /-- A priority that is not a 64-bit number counts as the largest one. -/
  unreadable : ∀ row : Row, (∀ text n, row[index]? = some text → parseInteger? text = some n →
    Number.fitsInt64 n = false) → rowPriority index row = 2 ^ 63 - 1
  /-- Rows that are added come in one after the other, each behind those of lower or equal priority. -/
  added : ∀ (rows : List Row) (k : Enforcer σ), e.addRows "p" name rows = (.ok true, k) →
    k.model.rows "p" name = rows.foldl (Definition.slot index) d.rows
  /-- A row that is updated keeps its place among the others unless its priority is another one; then it
  goes behind those of lower or equal priority.  The others keep their order. -/
  updated : ∀ (old new : Row) (k : Enforcer σ), e.updateRow "p" name old new = (.ok true, k) →
    ∃ front back front' back', d.rows = front ++ old :: back ∧
      k.model.rows "p" name = front' ++ new :: back' ∧ front' ++ back' = front ++ back ∧
      (rowPriority index old = rowPriority index new → front' = front) ∧
      (rowPriority index old ≠ rowPriority index new →
        (∀ r ∈ front', rowPriority index r ≤ rowPriority index new) ∧
          ∀ r ∈ back', rowPriority index new < rowPriority index r)
  resorted : e.model.sortByPriority = e.model
  /-- Where the effect goes by priorities, a matching row of least priority among those that allow or deny
  decides and explains. -/
  decided : ∀ (ctx : Context) (request : List Value) (r effect matcher : Definition)
    (program : Program), e.config.enabled = true → e.effector = .standard → ctx.policy = name →
    e.model.find? "r" ctx.request = some r → request.length = r.fields.length →
    e.model.find? "e" ctx.effect = some effect → EffectKind.ofText effect.value = .ok .priority →
    e.model.find? "m" ctx.matcher = some matcher →
    Program.ofSource e.scope (joinReferences matcher.value) = .ok program →
    (∃ row ∈ e.matching r d program request, d.statedEffect row ≠ .indeterminate) →
    ∃ row ∈ e.matching r d program request, d.statedEffect row ≠ .indeterminate ∧
      (∀ other ∈ e.matching r d program request, d.statedEffect other ≠ .indeterminate →
        rowPriority index row ≤ rowPriority index other) ∧
      (e.enforce ctx request).1 = .ok ⟨d.statedEffect row == .allow, [row]⟩

/-- **Rows stay in the order of their priorities.**  In every state that calls lead to from a new enforcer
without taking another model, whatever its store answers and whether calls succeed or not, and when the
default effect does not go by subjects: the rows of a policy definition with a priority field are in order,
and additions, updates, sorting and decisions go by that order. -/
theorem rows_by_priority {e : Enforcer σ}
    (h : Reachable Made (fun _ c => c.keepsDefinitions = true) e)
    (hdefault : ∀ d, e.model.find? "e" "e" = some d → EffectKind.ofText d.value ≠ .ok .subjectPriority)
    {name : String} {d : Definition} {index : Nat} (hd : e.model.find? "p" name = some d)
    (hindex : d.fieldIndex (name ++ "_priority") = some index) : e.PriorityOrder name d index := by
  have horder := Model.ordersBySubject_eq_false hdefault
  have hvalid := h.valid fun _ hmade => hmade
  obtain ⟨hprior, hall⟩ := h.inOrder horder
  have hinorder := hall "p" name d hd
  have hpriority : d.priority = some index := by
    have hkey : d.Prioritized := hprior "p" name d hd
    rw [hkey, hvalid.model.key "p" name d hd, hindex]
  have hsorted := hinorder index hpriority
  refine ⟨hsorted, fun row => rowPriority_unreadable, fun rows k hadd => ?_, fun old new k hupdate => ?_,
    hall.sortByPriority_eq hprior hvalid.model.toNamed, ?_⟩
  · obtain ⟨x, l, s, hadded⟩ := addRows_true hadd
    rw [hadded.after, rows_setRows_modify horder hd]
    exact Definition.rows_insertAll_eq hinorder hpriority rows
  · generalize hresult : (Except.ok true : Except Error Bool) = result at hupdate
    cases updates_of_updateRow hupdate with
    | refused hr => exact absurd hresult.symm hr
    | @updated x l s hsec hx hrow hlink hstore =>
      obtain rfl := Option.some.inj (hd.symm.trans hx)
      have hold : old ∈ d.rows := List.contains_iff_mem.1 (Except.ok.inj hresult).symm
      rw [List.contains_iff_mem.2 hold, rows_setRows_modify horder hd]
      exact Definition.rows_replace_eq hinorder hpriority hold new
    | _ => simp at hresult
  · rintro ctx request r effect matcher program hon heffector rfl hr harity heffect hkind hmatcher
      hcompile hdecides
    exact hvalid.decided_by_least hon heffector hr hd heffect hkind hmatcher harity hcompile hsorted
      hdecides

/-- A definition with priorities, and decisions by them. -/
def prioritizedModel : Model := .build [.define "r" "r" "sub", .define "p" "p" "priority, sub, eft",
  .define "e" "e" "priority(p.eft) || deny", .define "m" "m" "r.sub == p.sub"]

set_option maxRecDepth 20000 in
theorem made_prioritizedModel : (strict prioritizedModel []).Made := by
  have hbuilt : prioritizedModel.Built := ⟨_, rfl⟩
  have hinorder : prioritizedModel.InOrder := Model.inOrder_build (by simp)
  have hsorted : prioritizedModel.sorted = prioritizedModel :=
    hinorder.sorted_eq hbuilt.prioritized hbuilt.wellFormed.toNamed rfl
  have hload : (strict prioritizedModel []).load = (.ok (), strict prioritizedModel []) := by
    show (strict prioritizedModel []).install prioritizedModel = _
    unfold install
    rw [hsorted]
    rfl
  exact ⟨prioritizedModel, {}, { autoSave := false, rejectCycles := true }, hbuilt,
    make_of_load rfl hload⟩

set_option maxRecDepth 20000 in
/-- Rows that come in as 10, 1 and one that cannot be read are decided in the order 1, 10, the other. -/
theorem rows_by_priority_three : ∃ (e : Enforcer MemoryStore) (d : Definition),
    Reachable Made (fun _ c => c.keepsDefinitions = true) e ∧
      d.rows = [["1", "ann", "deny"], ["10", "ann", "allow"], ["soon", "ann", "allow"]] ∧
      e.PriorityOrder "p" d 0 := by
  let rows : List Row := [["10", "ann", "allow"], ["soon", "ann", "allow"], ["1", "ann", "deny"]]
  have h0 : Reachable Made (fun _ c => c.keepsDefinitions = true) (strict prioritizedModel []) :=
    .start made_prioritizedModel
  have h1 : Reachable Made (fun _ c => c.keepsDefinitions = true)
      (strict (prioritizedModel.modify "p" "p" (·.insertAll rows)) []) :=
    h0.strict_addRows (fun _ h => h) rfl (Or.inl rfl) rfl rfl (by decide) rfl
  refine ⟨_, _, h1, ?_, rows_by_priority h1 (fun d hd => ?_) rfl rfl⟩
  · rfl
  · rw [← Option.some.inj hd]
    simp [show EffectKind.ofText "priority(p.eft) || deny" = .ok .priority from
      EffectKind.ofText_text .priority, Definition.make]

end Enforcer

end AccessControl
