import AccessControl.Enforcer.Loading
import AccessControl.Proofs.Model.Build
/-!
# The lines of a model

A line tells its section by the first character of its name.  A model that was read from a text files
its definitions accordingly, so each line belongs to one definition, and a change of the rows of a
definition is a change of the lines with its name.  What comes out of a load is what went in.

    ofText text = .ok m → m.FiledByName                                (`filedByName_ofText`)
    a change of one definition leaves the lines of the others          (`Named.mem_lines_modify`)
    m.FiledByName → m.find? sec name = some d → (name :: row ∈ m.lines ↔ row ∈ d.rows)
                                                                       (`FiledByName.mem_lines_iff`)
    m.addLines lines = (.ok (), k) → (line ∈ k.lines ↔ line ∈ m.lines ∨ line ∈ lines ∧ line ≠ [])
                                                                       (`mem_lines_addLines`)
-/

namespace AccessControl

namespace Model

/-! ## Names and sections -/

/-- Definitions of policy and role rows are in the section that their names tell. -/
def FiledByName (m : Model) : Prop :=
  ∀ sec, sec = "p" ∨ sec = "g" → ∀ name d, m.find? sec name = some d → sectionOf name = sec

theorem FiledByName.of_bare {m k : Model} (hm : m.FiledByName) (h : k.bare = m.bare) : k.FiledByName := by
  intro sec hsec name d hd
  obtain ⟨old, hold, -⟩ := find?_of_bare h hd
  exact hm sec hsec name old hold

/-- A name that a section admits begins with the name of the section. -/
theorem sectionOf_of_isKeyOf {sec key : String} (hsec : sec = "p" ∨ sec = "g")
    (h : isKeyOf sec key = true) : sectionOf key = sec := by
  unfold isKeyOf at h
  rw [Bool.and_eq_true, List.isPrefixOf_iff_prefix] at h
  obtain ⟨⟨rest, hrest⟩, -⟩ := h
  unfold sectionOf
  rw [← hrest]
  rcases hsec with rfl | rfl <;> rfl

theorem FiledByName.define {m : Model} (h : m.FiledByName) {sec key : String} (hkey : isKeyOf sec key = true)
    (value : String) : (m.define sec key value).1.FiledByName := by
  intro other hother name d hd
  rw [find?_define] at hd
  split at hd
  · next heq =>
    obtain ⟨-, rfl, rfl⟩ := heq
    exact sectionOf_of_isKeyOf hother hkey
  · exact h other hother name d hd

theorem filedByName_ofText {text : String} {m : Model} (h : ofText text = .ok m) : m.FiledByName := by
  refine ofText_induction (fun sec _ name d hd => ?_) (fun k sec key value hkey hk => ?_) h
  · simp [find?] at hd
  · exact hk.define hkey value

/-! ## Lines and rows -/

theorem Named.mem_lines {m : Model} (h : m.Named) (line : Line) :
    line ∈ m.lines ↔ ∃ sec, (sec = "p" ∨ sec = "g") ∧
      ∃ name d, m.find? sec name = some d ∧ ∃ row ∈ d.rows, line = name :: row := by
  unfold lines
  rw [List.mem_flatMap]
  constructor
  · rintro ⟨d, hd, hline⟩
    obtain ⟨row, hrow, rfl⟩ := List.mem_map.1 hline
    rcases List.mem_append.1 hd with hd | hd
    · exact ⟨"p", Or.inl rfl, d.key, d, (h.mem_definitions "p" d).1 hd, row, hrow, rfl⟩
    · exact ⟨"g", Or.inr rfl, d.key, d, (h.mem_definitions "g" d).1 hd, row, hrow, rfl⟩
  · rintro ⟨sec, hsec, name, d, hd, row, hrow, rfl⟩
    obtain rfl := h.key sec name d hd
    refine ⟨d, ?_, List.mem_map_of_mem hrow⟩
    have hmem := (h.mem_definitions sec d).2 hd
    rcases hsec with rfl | rfl
    · exact List.mem_append_left _ hmem
    · exact List.mem_append_right _ hmem

theorem Named.ne_nil_of_mem_lines {m : Model} (h : m.Named) {line : Line} (hline : line ∈ m.lines) :
    line ≠ [] := by
  obtain ⟨_, -, name, _, -, row, -, rfl⟩ := (h.mem_lines line).1 hline
  exact List.cons_ne_nil name row

/-- A line of another definition than the one with a name in a section. -/
def LineElsewhere (m : Model) (sec name : String) (line : Line) : Prop :=
  ∃ other, (other = "p" ∨ other = "g") ∧ ∃ key d, m.find? other key = some d ∧
    ¬ (sec = other ∧ name = key) ∧ ∃ row ∈ d.rows, line = key :: row

theorem lineElsewhere_modify (m : Model) (sec name : String) (f : Definition → Definition)
    (line : Line) : (m.modify sec name f).LineElsewhere sec name line ↔ m.LineElsewhere sec name line := by
  have hfound : ∀ other key, ¬ (sec = other ∧ name = key) →
      (m.modify sec name f).find? other key = m.find? other key := by
    intro other key hother
    rw [find?_modify, if_neg hother]
  unfold LineElsewhere
  constructor <;> rintro ⟨other, hsec, key, d, hd, hother, hline⟩
  · exact ⟨other, hsec, key, d, (hfound other key hother) ▸ hd, hother, hline⟩
  · exact ⟨other, hsec, key, d, (hfound other key hother).symm ▸ hd, hother, hline⟩

section

variable {m : Model} (hm : m.Named) {sec name : String} (hsec : sec = "p" ∨ sec = "g")
  {d : Definition} (hd : m.find? sec name = some d)

include hm hsec hd

/-- The lines of a model are those of one definition and those of the others. -/
theorem Named.mem_lines_split (line : Line) :
    line ∈ m.lines ↔ m.LineElsewhere sec name line ∨ ∃ row ∈ d.rows, line = name :: row := by
  rw [hm.mem_lines]
  constructor
  · rintro ⟨other, hother, key, k, hk, hline⟩
    by_cases hmine : sec = other ∧ name = key
    · obtain ⟨rfl, rfl⟩ := hmine
      obtain rfl := Option.some.inj (hd.symm.trans hk)
      exact Or.inr hline
    · exact Or.inl ⟨other, hother, key, k, hk, hmine, hline⟩
  · rintro (⟨other, hother, key, k, hk, -, hline⟩ | hline)
    · exact ⟨other, hother, key, k, hk, hline⟩
    · exact ⟨sec, hsec, name, d, hd, hline⟩

/-- A change of one definition leaves the lines of the others. -/
theorem Named.mem_lines_modify {f : Definition → Definition} (hbare : ∀ d, (f d).bare = d.bare)
    (line : Line) : line ∈ (m.modify sec name f).lines ↔
      m.LineElsewhere sec name line ∨ ∃ row ∈ (f d).rows, line = name :: row := by
  rw [(hm.of_bare (m.bare_modify sec name hbare)).mem_lines_split hsec (find?_modify_self hd f),
    lineElsewhere_modify]

end

/-- In a model whose definitions are where their names tell, no other definition has such lines. -/
theorem FiledByName.not_lineElsewhere {m : Model} (hfiled : m.FiledByName) {sec name : String}
    (hsec : sec = "p" ∨ sec = "g") {d : Definition} (hd : m.find? sec name = some d) (row : Row) :
    ¬ m.LineElsewhere sec name (name :: row) := by
  rintro ⟨other, hother, key, k, hk, hne, row', -, heq⟩
  obtain ⟨rfl, rfl⟩ := List.cons.inj heq
  exact hne ⟨(hfiled sec hsec name d hd).symm.trans (hfiled other hother name k hk), rfl⟩

section

variable {m : Model} (hm : m.Named) (hfiled : m.FiledByName) {sec name : String}
  (hsec : sec = "p" ∨ sec = "g") {d : Definition} (hd : m.find? sec name = some d)

include hm hfiled hsec hd

/-- The lines with the name of a definition are its rows. -/
theorem FiledByName.mem_lines_iff (row : Row) : name :: row ∈ m.lines ↔ row ∈ d.rows := by
  rw [hm.mem_lines_split hsec hd, or_iff_right (hfiled.not_lineElsewhere hsec hd row)]
  simp

/-- A change of one definition leaves the lines with other names, and makes its new rows the lines with
its own. -/
theorem FiledByName.mem_lines_modify {f : Definition → Definition} (hbare : ∀ d, (f d).bare = d.bare)
    {P : Line → Prop} (hmine : ∀ row, P (name :: row) ↔ row ∈ (f d).rows)
    (hothers : ∀ line, line.head? ≠ some name → (P line ↔ line ∈ m.lines)) (line : Line) :
    line ∈ (m.modify sec name f).lines ↔ P line := by
  rw [hm.mem_lines_modify hsec hd hbare]
  by_cases hhead : line.head? = some name
  · obtain ⟨row, rfl⟩ : ∃ row, line = name :: row :=
      ⟨line.tail, (List.cons_head?_tail hhead).symm⟩
    rw [or_iff_right (hfiled.not_lineElsewhere hsec hd row), hmine]
    simp
  · have hnone : ∀ rows : List Row, ¬ ∃ row ∈ rows, line = name :: row := by
      rintro rows ⟨row, -, rfl⟩
      exact hhead rfl
    rw [hothers line hhead, hm.mem_lines_split hsec hd, or_iff_left (hnone _), or_iff_left (hnone _)]

omit hm hfiled hsec hd in
theorem not_mem_map_cons {line : Line} (h : line.head? ≠ some name) (rows : List Row) :
    line ∉ rows.map (name :: ·) := by
  rw [List.mem_map]
  rintro ⟨row, -, rfl⟩
  exact h rfl

theorem FiledByName.mem_lines_insertAll (rows : List Row) (line : Line) :
    line ∈ (m.modify sec name (·.insertAll rows)).lines ↔
      line ∈ m.lines ∨ line ∈ rows.map (name :: ·) := by
  refine hfiled.mem_lines_modify hm hsec hd (fun d => d.bare_insertAll rows) (fun row => ?_)
    (fun line hhead => or_iff_left (not_mem_map_cons hhead rows)) line
  rw [hfiled.mem_lines_iff hm hsec hd, (d.rows_insertAll rows).mem_iff, List.mem_append, or_comm]
  simp

theorem FiledByName.mem_lines_eraseAll (htidy : d.Tidy) (rows : List Row) (line : Line) :
    line ∈ (m.modify sec name (·.eraseAll rows)).lines ↔
      line ∈ m.lines ∧ line ∉ rows.map (name :: ·) := by
  refine hfiled.mem_lines_modify hm hsec hd (fun d => d.bare_eraseAll rows) (fun row => ?_)
    (fun line hhead => and_iff_left (not_mem_map_cons hhead rows)) line
  rw [hfiled.mem_lines_iff hm hsec hd, htidy.rows_eraseAll]
  simp

end

/-! ## Orders and clearing -/

/-- Models with the same rows, in whatever order, have the same lines. -/
theorem Named.mem_lines_of_perm {m k : Model} (hm : m.Named) (hbare : k.bare = m.bare)
    (hrows : ∀ sec name d, k.find? sec name = some d →
      ∃ old, m.find? sec name = some old ∧ d.rows.Perm old.rows) (line : Line) :
    line ∈ k.lines ↔ line ∈ m.lines := by
  rw [(hm.of_bare hbare).mem_lines, hm.mem_lines]
  constructor
  · rintro ⟨sec, hsec, name, d, hd, row, hrow, rfl⟩
    obtain ⟨old, hold, hperm⟩ := hrows sec name d hd
    exact ⟨sec, hsec, name, old, hold, row, hperm.mem_iff.1 hrow, rfl⟩
  · rintro ⟨sec, hsec, name, old, hold, row, hrow, rfl⟩
    obtain ⟨d, hd, -⟩ := find?_of_bare hbare.symm hold
    obtain ⟨x, hx, hperm⟩ := hrows sec name d hd
    obtain rfl := Option.some.inj (hx.symm.trans hold)
    exact ⟨sec, hsec, name, d, hd, row, hperm.mem_iff.2 hrow, rfl⟩

theorem Named.mem_lines_sortBySubject {m : Model} (hm : m.Named) (line : Line) :
    line ∈ m.sortBySubject.lines ↔ line ∈ m.lines := by
  refine hm.mem_lines_of_perm m.bare_sortBySubject (fun sec name d hd => ?_) line
  obtain ⟨levels, hl⟩ := m.find?_sortBySubject sec name
  rw [hl] at hd
  split at hd
  · obtain ⟨old, hold, rfl⟩ := Option.map_eq_some_iff.1 hd
    exact ⟨old, hold, old.rows_sortBySubject _ _⟩
  · exact ⟨d, hd, List.Perm.refl _⟩

theorem Named.mem_lines_sortByPriority {m : Model} (hm : m.Named) (line : Line) :
    line ∈ m.sortByPriority.lines ↔ line ∈ m.lines := by
  refine hm.mem_lines_of_perm m.bare_sortByPriority (fun sec name d hd => ?_) line
  rw [sortByPriority, find?_modifyAll] at hd
  split at hd
  · obtain ⟨old, hold, rfl⟩ := Option.map_eq_some_iff.1 hd
    exact ⟨old, hold, old.rows_sortByPriority⟩
  · exact ⟨d, hd, List.Perm.refl _⟩

theorem Named.mem_lines_sorted {m : Model} (hm : m.Named) (line : Line) :
    line ∈ m.sorted.lines ↔ line ∈ m.lines := by
  unfold sorted
  dsimp only
  split
  · rw [(hm.of_bare m.bare_sortByPriority).mem_lines_sortBySubject, hm.mem_lines_sortByPriority]
  · rw [hm.mem_lines_sortByPriority]

theorem Named.not_mem_lines_clear {m : Model} (hm : m.Named) (line : Line) : line ∉ m.clear.lines := by
  rw [(hm.of_bare m.bare_clear).mem_lines]
  rintro ⟨sec, hsec, name, d, hd, row, hrow, -⟩
  rw [find?_clear m hsec] at hd
  obtain ⟨old, -, rfl⟩ := Option.map_eq_some_iff.1 hd
  simp [Definition.clear] at hrow

/-! ## Loads -/

/-- A row that goes into a model, or is there already, is one of its lines. -/
theorem FiledByName.mem_lines_add {m k : Model} (hm : m.WellFormed) (hfiled : m.FiledByName) {sec name : String}
    {row : Row} {changed : Bool} (h : m.add sec name row = .ok (k, changed)) (line : Line) :
    line ∈ k.lines ↔ line ∈ m.lines ∨ line = name :: row := by
  unfold add at h
  split at h
  · simp at h
  · next d hrows =>
    have hd := find?_of_findRows hrows
    have hsec := section_of_findRows hrows
    split at h
    · simp at h
    · split at h
      · next hthere =>
        rw [← (Prod.mk.inj (Except.ok.inj h)).1]
        have hmem := (hfiled.mem_lines_iff hm.toNamed hsec hd row).2
          (((hm.tidy sec name d hd).contains_iff row).1 hthere)
        exact ⟨Or.inl, fun hline => hline.elim id fun heq => heq ▸ hmem⟩
      · rw [← (Prod.mk.inj (Except.ok.inj h)).1]
        have hlines := hfiled.mem_lines_insertAll hm.toNamed hsec hd [row] line
        rwa [List.map_singleton, List.mem_singleton] at hlines

/-- What is put into a model is there, and nothing else comes in. -/
theorem FiledByName.mem_lines_addLines {m k : Model} (hm : m.WellFormed) (hfiled : m.FiledByName)
    {lines : List Line} (h : m.addLines lines = (.ok (), k)) (line : Line) :
    line ∈ k.lines ↔ line ∈ m.lines ∨ line ∈ lines ∧ line ≠ [] := by
  induction lines generalizing m with
  | nil =>
    rw [← (Prod.mk.inj h).2]
    simp
  | cons head rest ih =>
    unfold addLines at h
    split at h
    · next l hl =>
      unfold addLine at hl
      split at hl
      · rw [← Except.ok.inj hl] at h
        rw [ih hm hfiled h, List.mem_cons, or_and_right]
        simp
      · next name fields =>
        split at hl
        · next added changed hadd =>
          rw [← Except.ok.inj hl] at h
          have hevolves := evolves_add hadd
          rw [ih (hevolves.wellFormed hm) (hfiled.of_bare hevolves.bare) h,
            hfiled.mem_lines_add hm hadd, List.mem_cons, or_and_right, or_assoc]
          have hname : line = name :: fields → line ≠ [] := by
            rintro rfl
            exact List.cons_ne_nil _ _
          tauto
        · simp at hl
    · simp at h

end Model

end AccessControl
