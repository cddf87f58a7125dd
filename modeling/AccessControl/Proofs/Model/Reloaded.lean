import AccessControl.Proofs.Model.Lines
import AccessControl.Proofs.Model.Priority
import AccessControl.Proofs.Store.File
/-!
# The lines of a model put back

A model that was read from a text names its definitions of rows by a letter with digits behind it and gives
each a field, so its lines are ones that a policy file can hold.  Put into the model without its rows, in
their order, they give every definition the rows it had: no line is there already, and rows that are in the
order of their priorities come in at the end.

    ofText text = .ok m → m.Declared                                   (`declared_ofText`)
    m.Declared → every line of m is storable                           (`Declared.storable`)
    m.clear.addLines m.lines = (.ok (), k) → k has the rows of m       (`InOrder.rows_reloaded`)
-/

namespace AccessControl

/-! ## Names without blanks -/

namespace Text

theorem dropBlanks_eq {cs : List Char} (h : ∀ c ∈ cs, isBlank c = false) : dropBlanks cs = cs := by
  unfold dropBlanks
  cases cs with
  | nil => rfl
  | cons c cs => rw [List.dropWhile_cons_of_neg (by simp [h c List.mem_cons_self])]

/-- A text without blanks stays as it is. -/
theorem trim_eq {s : String} (h : ∀ c ∈ s.toList, isBlank c = false) : trim s = s := by
  have hreverse : ∀ c ∈ s.toList.reverse, isBlank c = false := fun c hc => h c (List.mem_reverse.1 hc)
  unfold trim dropBlanksEnd
  rw [dropBlanks_eq h, dropBlanks_eq hreverse, List.reverse_reverse, String.ofList_toList]

theorem isBlank_of_isDigit {c : Char} (h : c.isDigit = true) : isBlank c = false := by
  have hrange : 48 ≤ c.toNat ∧ c.toNat ≤ 57 := by
    simpa [Char.isDigit, UInt32.le_iff_toNat_le] using h
  simp only [isBlank, Bool.or_eq_false_iff, Bool.and_eq_false_iff, beq_eq_false_iff_ne,
    decide_eq_false_iff_not]
  omega

end Text

namespace Model

/-! ## Declarations in a text -/

/-- Definitions of policy and role rows are named by their section and digits, and have a field. -/
def Declared (m : Model) : Prop :=
  ∀ sec, sec = "p" ∨ sec = "g" → ∀ name d, m.find? sec name = some d →
    isKeyOf sec name = true ∧ d.fields ≠ []

theorem Declared.of_bare {m k : Model} (hm : m.Declared) (h : k.bare = m.bare) : k.Declared := by
  intro sec hsec name d hd
  obtain ⟨old, hold, heq⟩ := find?_of_bare h hd
  rw [← Definition.fields_eq heq]
  exact hm sec hsec name old hold

theorem Declared.filed {m : Model} (h : m.Declared) : m.FiledByName := fun sec hsec name d hd =>
  sectionOf_of_isKeyOf hsec (h sec hsec name d hd).1

theorem Declared.define {m : Model} (h : m.Declared) {sec key : String} (hkey : isKeyOf sec key = true)
    (value : String) : (m.define sec key value).1.Declared := by
  intro other hother name d hd
  rw [find?_define] at hd
  split at hd
  · next heq =>
    obtain ⟨-, rfl, rfl⟩ := heq
    refine ⟨hkey, ?_⟩
    rw [← Option.some.inj hd]
    have hsplit : splitFields value ≠ [] := by
      simp [splitFields, Text.splitAt_ne_nil]
    rcases hother with rfl | rfl <;> simp [Definition.make, Definition.fieldNames, hsplit]
  · exact h other hother name d hd

theorem declared_ofText {text : String} {m : Model} (h : ofText text = .ok m) : m.Declared := by
  refine ofText_induction (fun sec _ name d hd => ?_) (fun k sec key value hkey hk => ?_) h
  · simp [find?] at hd
  · exact hk.define hkey value

/-- The definitions whose rows a model's lines are. -/
theorem Named.mem_rowDefinitions {m : Model} (hm : m.Named) {sec name : String}
    (hsec : sec = "p" ∨ sec = "g") {d : Definition} (hd : m.find? sec name = some d) :
    d ∈ m.definitions "p" ++ m.definitions "g" := by
  obtain rfl := hm.key sec name d hd
  have hmem := (hm.mem_definitions sec d).2 hd
  rcases hsec with rfl | rfl
  · exact List.mem_append_left _ hmem
  · exact List.mem_append_right _ hmem

theorem WellFormed.rows_fit {m : Model} (hm : m.WellFormed) :
    ∀ d ∈ m.definitions "p" ++ m.definitions "g", ∀ row ∈ d.rows, row.length = d.fields.length := by
  intro d hd
  rcases List.mem_append.1 hd with hd | hd
  · exact (hm.tidy "p" d.key d ((hm.mem_definitions "p" d).1 hd)).arity
  · exact (hm.tidy "g" d.key d ((hm.mem_definitions "g" d).1 hd)).arity

/-- The characters of a name: the letter of the section, then digits. -/
theorem toList_of_isKeyOf {sec key : String} (hsec : sec = "p" ∨ sec = "g")
    (h : isKeyOf sec key = true) :
    ∃ c digits, key.toList = c :: digits ∧ (c = 'p' ∨ c = 'g') ∧ ∀ d ∈ digits, d.isDigit = true := by
  unfold isKeyOf at h
  rw [Bool.and_eq_true, List.isPrefixOf_iff_prefix, List.all_eq_true] at h
  obtain ⟨⟨digits, hkey⟩, hdigits⟩ := h
  rw [← hkey] at hdigits ⊢
  rcases hsec with rfl | rfl
  · exact ⟨'p', digits, rfl, Or.inl rfl, hdigits⟩
  · exact ⟨'g', digits, rfl, Or.inr rfl, hdigits⟩

/-- No name of a definition of rows has blanks. -/
theorem trim_of_isKeyOf {sec key : String} (hsec : sec = "p" ∨ sec = "g")
    (h : isKeyOf sec key = true) : Text.trim key = key := by
  obtain ⟨c, digits, hkey, hc, hdigits⟩ := toList_of_isKeyOf hsec h
  refine Text.trim_eq fun x hx => ?_
  rw [hkey] at hx
  rcases List.mem_cons.1 hx with rfl | hx
  · rcases hc with rfl | rfl <;> decide
  · exact Text.isBlank_of_isDigit (hdigits x hx)

/-- Each line is one that a policy file can hold, when all rows have as many fields as their
definition. -/
theorem Declared.storable {m : Model} (hm : m.Named) (h : m.Declared)
    (hfit : ∀ d ∈ m.definitions "p" ++ m.definitions "g", ∀ row ∈ d.rows, row.length = d.fields.length)
    {line : Line} (hline : line ∈ m.lines) : line.Storable := by
  obtain ⟨sec, hsec, name, d, hd, row, hrow, rfl⟩ := (hm.mem_lines line).1 hline
  obtain ⟨hkey, hfields⟩ := h sec hsec name d hd
  obtain ⟨c, digits, hname, hc, -⟩ := toList_of_isKeyOf hsec hkey
  refine ⟨⟨name, row, rfl, ?_, ?_⟩, ?_, name, List.mem_cons_self, ?_⟩
  · rw [hname]
    rcases hc with rfl | rfl <;> simp
  · rw [hname]
    rcases hc with rfl | rfl <;> simp
  · have hlen := hfit d (hm.mem_rowDefinitions hsec hd) row hrow
    have hpos := List.length_pos_iff.2 hfields
    rw [List.length_cons]
    omega
  · rw [trim_of_isKeyOf hsec hkey]
    rintro rfl
    simp at hname

/-! ## The lines of one definition -/

/-- The rows that lines have for a definition. -/
def rowsNamed (name : String) (lines : List Line) : List Row :=
  lines.filterMap fun line => match line with
    | [] => none
    | head :: row => if head = name then some row else none

theorem rowsNamed_map_same (name : String) (rows : List Row) :
    rowsNamed name (rows.map (name :: ·)) = rows := by
  unfold rowsNamed
  rw [List.filterMap_map]
  simp

theorem rowsNamed_map_other {name other : String} (h : other ≠ name) (rows : List Row) :
    rowsNamed name (rows.map (other :: ·)) = [] := by
  unfold rowsNamed
  rw [List.filterMap_map]
  simp [h]

theorem rowsNamed_append (name : String) (lines others : List Line) :
    rowsNamed name (lines ++ others) = rowsNamed name lines ++ rowsNamed name others :=
  List.filterMap_append

section

variable {defs : List Definition} {name : String}

theorem rowsNamed_flatMap_other (h : name ∉ defs.map (·.key)) :
    rowsNamed name (defs.flatMap fun d => d.rows.map fun row => d.key :: row) = [] := by
  induction defs with
  | nil => rfl
  | cons d rest ih =>
    rw [List.map_cons, List.mem_cons, not_or] at h
    rw [List.flatMap_cons, rowsNamed_append, rowsNamed_map_other (Ne.symm h.1), ih h.2]
    rfl

/-- Where names are distinct, the rows under one of them are those of its definition. -/
theorem rowsNamed_flatMap (hnodup : (defs.map (·.key)).Nodup) {d : Definition} (hd : d ∈ defs) :
    rowsNamed d.key (defs.flatMap fun d => d.rows.map fun row => d.key :: row) = d.rows := by
  induction defs with
  | nil => simp at hd
  | cons k rest ih =>
    rw [List.map_cons, List.nodup_cons] at hnodup
    rw [List.flatMap_cons, rowsNamed_append]
    rcases List.mem_cons.1 hd with rfl | hd
    · rw [rowsNamed_map_same, rowsNamed_flatMap_other hnodup.1, List.append_nil]
    · have hne : k.key ≠ d.key := fun heq => hnodup.1 (heq ▸ List.mem_map_of_mem hd)
      rw [rowsNamed_map_other hne, ih hnodup.2 hd]
      rfl

end

/-- The rows under the name of a definition are its rows, in order. -/
theorem FiledByName.rowsNamed_lines {m : Model} (hm : m.Named) (hfiled : m.FiledByName) {sec name : String}
    (hsec : sec = "p" ∨ sec = "g") {d : Definition} (hd : m.find? sec name = some d) :
    rowsNamed name m.lines = d.rows := by
  have hnodup : ((m.definitions "p" ++ m.definitions "g").map (·.key)).Nodup := by
    rw [List.map_append, List.nodup_append]
    refine ⟨hm.nodup_keys "p", hm.nodup_keys "g", fun x hx y hy heq => ?_⟩
    obtain ⟨a, ha, rfl⟩ := List.mem_map.1 hx
    obtain ⟨b, hb, rfl⟩ := List.mem_map.1 hy
    -- a name tells its section, so no name is in both
    have hp := hfiled "p" (Or.inl rfl) a.key a ((hm.mem_definitions "p" a).1 ha)
    have hg := hfiled "g" (Or.inr rfl) b.key b ((hm.mem_definitions "g" b).1 hb)
    rw [heq, hg] at hp
    simp at hp
  obtain rfl := hm.key sec name d hd
  exact rowsNamed_flatMap hnodup (hm.mem_rowDefinitions hsec hd)

/-! ## Lines put into a model -/

/-- A row that went into a definition it is new to was inserted there. -/
theorem find?_add_new {m k : Model} {sec name : String} {d : Definition} {row : Row} {changed : Bool}
    (hd : m.find? sec name = some d) (htidy : d.Tidy) (hnew : row ∉ d.rows)
    (h : m.add sec name row = .ok (k, changed)) : k.find? sec name = some (d.insert row) := by
  unfold add at h
  split at h
  · simp at h
  · next x hx =>
    obtain rfl := Option.some.inj (hd.symm.trans (find?_of_findRows hx))
    split at h
    · simp at h
    · rw [(htidy.contains_eq_false_iff row).2 hnew, if_neg (by simp)] at h
      rw [← (Prod.mk.inj (Except.ok.inj h)).1, find?_modify_self hd]

/-- A row leaves the other definitions alone. -/
theorem find?_add_other {m k : Model} {sec name other otherName : String} {row : Row} {changed : Bool}
    (hne : ¬(sec = other ∧ name = otherName)) (h : m.add sec name row = .ok (k, changed)) :
    k.find? other otherName = m.find? other otherName := by
  rcases add_cases h with rfl | ⟨d, -, -, -, rfl⟩
  · rfl
  · rw [find?_modify, if_neg hne]

/-- Rows that are new to a definition and distinct go into it in the order of their lines. -/
theorem FiledByName.find?_addLines {m k : Model} (hm : m.WellFormed) (hfiled : m.FiledByName) {lines : List Line}
    (h : m.addLines lines = (.ok (), k)) {sec name : String} (hsec : sec = "p" ∨ sec = "g")
    {d : Definition} (hd : m.find? sec name = some d)
    (hnew : ∀ row ∈ rowsNamed name lines, row ∉ d.rows) (hnodup : (rowsNamed name lines).Nodup) :
    k.find? sec name = some (d.insertAll (rowsNamed name lines)) := by
  induction lines generalizing m d with
  | nil =>
    rw [← (Prod.mk.inj h).2, hd]
    rfl
  | cons line rest ih =>
    unfold addLines at h
    split at h
    · next l hl =>
      unfold addLine at hl
      split at hl
      · rw [← Except.ok.inj hl] at h
        exact ih hm hfiled h hd hnew hnodup
      · next head row =>
        split at hl
        · next added changed hadd =>
          rw [← Except.ok.inj hl] at h
          have hevolves := evolves_add hadd
          have hwell := hevolves.wellFormed hm
          have hstill := hfiled.of_bare hevolves.bare
          by_cases hhead : head = name
          · subst hhead
            have hcons : rowsNamed head ((head :: row) :: rest) = row :: rowsNamed head rest := by
              simp [rowsNamed]
            rw [hcons] at hnew hnodup ⊢
            rw [List.forall_mem_cons] at hnew
            rw [List.nodup_cons] at hnodup
            rw [hfiled sec hsec head d hd] at hadd
            have hfound := find?_add_new hd (hm.tidy sec head d hd) hnew.1 hadd
            refine ih hwell hstill h hfound (fun r hr => ?_) hnodup.2
            rw [(d.rows_insert row).mem_iff, List.mem_cons, not_or]
            exact ⟨fun heq => hnodup.1 (heq ▸ hr), hnew.2 r hr⟩
          · have hskip : rowsNamed name ((head :: row) :: rest) = rowsNamed name rest := by
              simp [rowsNamed, hhead]
            rw [hskip] at hnew hnodup ⊢
            have hfound := (find?_add_other (fun heq => hhead heq.2) hadd).trans hd
            exact ih hwell hstill h hfound hnew hnodup
        · simp at hl
    · simp at h

/-- Lines leave the definitions that hold no rows alone. -/
theorem find?_addLines_other {m k : Model} {lines : List Line} (h : m.addLines lines = (.ok (), k))
    {sec : String} (hsec : ¬(sec = "p" ∨ sec = "g")) (name : String) :
    k.find? sec name = m.find? sec name := by
  induction lines generalizing m with
  | nil => rw [← (Prod.mk.inj h).2]
  | cons line rest ih =>
    unfold addLines at h
    split at h
    · next l hl =>
      refine (ih h).trans ?_
      unfold addLine at hl
      split at hl
      · rw [Except.ok.inj hl]
      · next head row =>
        split at hl
        · next added changed hadd =>
          rw [← Except.ok.inj hl]
          refine find?_add_other (fun heq => hsec ?_) hadd
          unfold add at hadd
          split at hadd
          · simp at hadd
          · next d hd => exact heq.1 ▸ section_of_findRows hd
        · simp at hl
    · simp at h

/-! ## Rows put back -/

theorem find?_clear_other (m : Model) {sec : String} (hsec : ¬(sec = "p" ∨ sec = "g")) (name : String) :
    m.clear.find? sec name = m.find? sec name := by
  rw [not_or] at hsec
  unfold clear
  rw [find?_modifyAll, if_neg (Ne.symm hsec.2), find?_modifyAll, if_neg (Ne.symm hsec.1)]

/-- Each definition gets the rows it had, in their order. -/
theorem InOrder.rows_reloaded {m k : Model} (horder : m.InOrder) (hm : m.WellFormed) (hfiled : m.FiledByName)
    (hdistinct : m.DistinctRows) (h : m.clear.addLines m.lines = (.ok (), k)) (sec name : String) :
    k.rows sec name = m.rows sec name := by
  by_cases hsec : sec = "p" ∨ sec = "g"
  · cases hd : m.find? sec name with
    | none =>
      have hnone : k.find? sec name = none := by
        rw [Option.eq_none_iff_forall_ne_some]
        intro d hk
        obtain ⟨old, hold, -⟩ := find?_of_bare (evolves_loaded h).bare hk
        simp [hd] at hold
      unfold rows
      rw [hnone, hd]
    | some d =>
      have hcleared : m.clear.find? sec name = some d.clear := by
        rw [m.find?_clear hsec, hd]
        rfl
      have hrows := hfiled.rowsNamed_lines hm.toNamed hsec hd
      have hfound := (hfiled.of_bare m.bare_clear).find?_addLines hm.clear h hsec hcleared
        (by simp [Definition.clear]) (hrows ▸ hdistinct sec hsec name d hd)
      rw [rows_of_find? hfound, rows_of_find? hd, hrows]
      exact Definition.rows_insertAll_last fun index hindex => horder sec name d hd index hindex
  · unfold rows
    rw [find?_addLines_other h hsec, m.find?_clear_other hsec]

/-- A model with the rows of one in order is in order. -/
theorem InOrder.of_rows {m k : Model} (h : m.InOrder) (hbare : k.bare = m.bare)
    (hrows : ∀ sec name, k.rows sec name = m.rows sec name) : k.InOrder := by
  intro sec name d hd index hindex
  obtain ⟨old, hold, heq⟩ := find?_of_bare hbare hd
  have hsame := hrows sec name
  rw [rows_of_find? hd, rows_of_find? hold] at hsame
  rw [hsame]
  exact h sec name old hold index (Definition.priority_eq heq ▸ hindex)

end Model

end AccessControl
