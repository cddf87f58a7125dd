import AccessControl.Model.Text
import AccessControl.Proofs.Model.Changes
/-!
# Models that operations build

Whatever operations built a model, it is well formed; a model that was read from a text is one that
definitions build.

    (build operations).WellFormed                                      (`wellFormed_build`)
    ofText text = .ok m → m.Built                                      (`built_ofText`)
    m.checkEffects = .ok () ↔ every effect definition is one           (`checkEffects_iff`)
-/

namespace AccessControl

namespace Model

/-- What can be done to a model. -/
inductive Operation where
  | define (sec key value : String)
  | add (sec name : String) (row : Row)
  | addMany (sec name : String) (rows : List Row)
  | addDuplicates (sec name : String) (rows : List Row)
  | remove (sec name : String) (row : Row)
  | removeMany (sec name : String) (rows : List Row)
  | replace (sec name : String) (old new : Row)
  | removeFiltered (sec name : String) (index : Nat) (values : List String)
  | clear
  | sortByPriority
  | sortBySubject

/-- The model that comes out of an operation, which is the old one if it fails. -/
def outcome {α : Type} (m : Model) : Except Error (Model × α) → Model
  | .ok (k, _) => k
  | .error _ => m

/-- The model after an operation. -/
def apply (m : Model) : Operation → Model
  | .define sec key value => (m.define sec key value).1
  | .add sec name row => m.outcome (m.add sec name row)
  | .addMany sec name rows => m.outcome (m.addMany sec name rows)
  | .addDuplicates sec name rows => m.outcome ((m.addDuplicates sec name rows).map fun k => (k, ()))
  | .remove sec name row => m.outcome (m.remove sec name row)
  | .removeMany sec name rows => m.outcome (m.removeMany sec name rows)
  | .replace sec name old new => m.outcome (m.replace sec name old new)
  | .removeFiltered sec name index values => m.outcome (m.removeFiltered sec name index values)
  | .clear => m.clear
  | .sortByPriority => m.sortByPriority
  | .sortBySubject => m.sortBySubject

/-- The model that operations build from nothing. -/
def build (operations : List Operation) : Model := operations.foldl apply {}

/-- Whether operations can build a model. -/
def Built (m : Model) : Prop := ∃ operations, m = build operations

/-- What holds of a model, and of what an operation gives if it goes through, holds of the outcome. -/
theorem outcome_of {α : Type} {P : Model → Prop} {m : Model} (hm : P m)
    {result : Except Error (Model × α)} (h : ∀ k a, result = .ok (k, a) → P k) :
    P (m.outcome result) := by
  match result with
  | .ok (k, a) => exact h k a rfl
  | .error _ => exact hm

theorem addDuplicates_map_cases {m k : Model} {sec name : String} {rows : List Row}
    (h : ((m.addDuplicates sec name rows).map fun k => (k, ())) = .ok (k, ())) :
    ∃ d, m.find? sec name = some d ∧ (∀ row ∈ rows, row.length = d.fields.length) ∧
      k = m.modify sec name (·.insertAll rows) := by
  cases hadd : m.addDuplicates sec name rows with
  | error err => simp [hadd, Except.map] at h
  | ok l =>
    simp only [hadd, Except.map, Except.ok.injEq, Prod.mk.injEq] at h
    obtain ⟨d, hd, hlen, hl⟩ := addDuplicates_cases hadd
    exact ⟨d, hd, hlen, h.1.symm.trans hl⟩

theorem WellFormed.apply {m : Model} (hm : m.WellFormed) (operation : Operation) :
    (m.apply operation).WellFormed := by
  cases operation with
  | define sec key value => exact hm.define sec key value
  | add => exact outcome_of hm fun _ _ h => (evolves_add h).wellFormed hm
  | addMany => exact outcome_of hm fun _ _ h => (evolves_addMany h).wellFormed hm
  | addDuplicates sec name rows =>
    refine outcome_of hm fun k _ h => ?_
    obtain ⟨d, hd, hlen, rfl⟩ := addDuplicates_map_cases h
    refine hm.modify sec name (fun d => d.bare_insertAll rows) fun k hk => ?_
    obtain rfl : d = k := Option.some.inj (hd.symm.trans hk)
    exact (hm.tidy sec name d hd).insertAll hlen
  | remove sec name row =>
    refine outcome_of hm fun k _ h => ?_
    rw [remove_cases h]
    exact (m.evolves_erase sec name row).wellFormed hm
  | removeMany => exact outcome_of hm fun _ _ h => (evolves_removeMany h).wellFormed hm
  | replace => exact outcome_of hm fun _ _ h => (evolves_replace h).wellFormed hm
  | removeFiltered => exact outcome_of hm fun _ _ h => (evolves_removeFiltered h).wellFormed hm
  | clear => exact m.evolves_clear.wellFormed hm
  | sortByPriority => exact hm.sortByPriority
  | sortBySubject => exact hm.sortBySubject

/-- The model after operations, one after the other. -/
def run (m : Model) (operations : List Operation) : Model := operations.foldl apply m

theorem WellFormed.run {m : Model} (hm : m.WellFormed) (operations : List Operation) :
    (m.run operations).WellFormed := by
  induction operations generalizing m with
  | nil => exact hm
  | cons operation rest ih => exact ih (hm.apply operation)

theorem wellFormed_build (operations : List Operation) : (build operations).WellFormed :=
  wellFormed_empty.run operations

theorem Built.apply {m : Model} (h : m.Built) (operation : Operation) : (m.apply operation).Built := by
  obtain ⟨operations, rfl⟩ := h
  exact ⟨operations ++ [operation], by simp [build]⟩

/-- What every definition keeps, reading lines keeps. -/
theorem readLines_induction {P : Model → Prop}
    (hdefine : ∀ m sec key value, isKeyOf sec key = true → P m → P (m.define sec key value).1)
    {m k : Model} (hm : P m) {sec : Option String} {lines : List LogicalLine}
    (h : m.readLines sec lines = .ok k) : P k := by
  induction lines generalizing m sec with
  | nil => exact Except.ok.inj h ▸ hm
  | cons line rest ih =>
    unfold readLines at h
    split at h
    · next l sec' hl =>
      refine ih ?_ h
      unfold readLine at hl
      split at hl
      · split at hl
        · rw [← (Prod.mk.inj (Except.ok.inj hl)).1]
          exact hm
        · simp at hl
      · cases sec with
        | none => simp at hl
        | some sec =>
          dsimp only at hl
          split at hl
          · simp at hl
          · next key value _ =>
            split at hl
            · next hkey =>
              split at hl
              · next hdef =>
                rw [← (Prod.mk.inj (Except.ok.inj hl)).1]
                have hnext := hdefine m sec key value hkey hm
                rwa [hdef] at hnext
              · simp at hl
            · simp at hl
    · simp at h

/-- What holds of the empty model and every definition keeps holds of a model that was read. -/
theorem ofText_induction {P : Model → Prop} (hempty : P {})
    (hdefine : ∀ m sec key value, isKeyOf sec key = true → P m → P (m.define sec key value).1)
    {text : String} {m : Model} (h : ofText text = .ok m) : P m := by
  unfold ofText at h
  split at h
  · simp at h
  · next k hk =>
    have hread : P k := readLines_induction hdefine hempty hk
    dsimp only at h
    split at h
    · split at h
      · exact Except.ok.inj h ▸ hread
      · simp at h
    · simp at h

/-- A model that was read is one that definitions build. -/
theorem built_ofText {text : String} {m : Model} (h : ofText text = .ok m) : m.Built :=
  ofText_induction ⟨[], rfl⟩ (fun _ sec key value _ hm => hm.apply (.define sec key value)) h

theorem Built.wellFormed {m : Model} (h : m.Built) : m.WellFormed := by
  obtain ⟨operations, rfl⟩ := h
  exact wellFormed_build operations

/-! ## Effects -/

theorem checkEffects_go_iff (defs : List Definition) :
    checkEffects.go defs = .ok () ↔ ∀ d ∈ defs, ∃ kind, EffectKind.ofText d.value = .ok kind := by
  induction defs with
  | nil => simp [checkEffects.go]
  | cons d rest ih =>
    rw [checkEffects.go, List.forall_mem_cons]
    split
    · next kind hkind => simp [hkind, ih]
    · next err herr => simp [herr]

/-- The check passes when every definition of an effect is one. -/
theorem checkEffects_iff (m : Model) :
    m.checkEffects = .ok () ↔
      ∀ d ∈ m.definitions "e", ∃ kind, EffectKind.ofText d.value = .ok kind :=
  checkEffects_go_iff (m.definitions "e")

theorem checkEffects_of_bare {m k : Model} (h : k.bare = m.bare) (hm : m.checkEffects = .ok ()) :
    k.checkEffects = .ok () := by
  rw [checkEffects_iff] at hm ⊢
  intro d hd
  have hbare : d.bare ∈ (m.definitions "e").map Definition.bare := by
    rw [← definitions_bare, ← h, definitions_bare]
    exact List.mem_map_of_mem hd
  obtain ⟨old, hold, heq⟩ := List.mem_map.1 hbare
  obtain ⟨kind, hkind⟩ := hm old hold
  exact ⟨kind, by rw [← Definition.value_eq heq]; exact hkind⟩

end Model

end AccessControl
