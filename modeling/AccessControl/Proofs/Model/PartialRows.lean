import AccessControl.Proofs.Model.Priority
/-!
# A part of the lines put into a model

A filter asks for the values of the first fields of rows.  Put into models without rows, the lines that it
accepts give each definition the rows that it accepts out of those that all lines give it, in their order:
a row comes in at the same place among the rows that stay, and one that is there already is there in both.

    a row is accepted when it meets the values asked for               (`rowMatches_iff`)
    what comes in leaves the accepted rows in step                     (`filter_insert`)
    m.addLines lines = (.ok (), k) → the accepted lines go in, and their rows are a part of those of k
                                                                       (`IsPart.addLines`)
-/

namespace AccessControl

/-! ## Rows that are accepted -/

/-- Whether a row has the values asked for in its first fields; an empty value is no demand. -/
def FirstFieldsAre (values : List String) (row : Row) : Prop :=
  ∀ (i : Nat) (want : String), values[i]? = some want → want ≠ "" → row[i]? = some want

theorem rowMatches_iff (values : List String) (row : Row) :
    rowMatches 0 values row = true ↔ FirstFieldsAre values row := by
  unfold rowMatches FirstFieldsAre
  rw [List.all_eq_true]
  constructor
  · intro h i want hwant hne
    have hmem : (want, i) ∈ values.zipIdx 0 := List.mk_mem_zipIdx_iff_getElem?.2 hwant
    simpa [hne] using h (want, i) hmem
  · rintro h ⟨want, i⟩ hmem
    have hwant := List.mk_mem_zipIdx_iff_getElem?.1 hmem
    by_cases hne : want = ""
    · simp [hne]
    · simp [h i want hwant hne]

instance (values : List String) (row : Row) : Decidable (FirstFieldsAre values row) :=
  decidable_of_iff _ (rowMatches_iff values row)

/-- The values that a filter asks for in the rows of a section. -/
def Filter.values (filter : Filter) (sec : String) : List String :=
  if sec = "p" then filter.policy else filter.roles

/-- The rows of a section that a filter accepts. -/
def Filter.part (filter : Filter) (sec : String) (rows : List Row) : List Row :=
  rows.filter fun row => decide (FirstFieldsAre (filter.values sec) row)

theorem Filter.accepts_cons (filter : Filter) {sec name : String} (hsec : sec = "p" ∨ sec = "g")
    (h : sectionOf name = sec) (row : Row) :
    filter.accepts (name :: row) = decide (FirstFieldsAre (filter.values sec) row) := by
  unfold sectionOf at h
  unfold Filter.accepts Filter.values
  cases hc : name.toList.head? with
  | none =>
    rw [hc] at h
    rcases hsec with rfl | rfl <;> simp at h
  | some c =>
    rw [hc] at h
    dsimp only at h ⊢
    rw [hc]
    split at h
    · have hlist := congrArg String.toList h
      rw [Bool.eq_iff_iff, decide_eq_true_iff, ← rowMatches_iff]
      rcases hsec with rfl | rfl
      · obtain rfl : c = 'p' := by simpa using hlist
        simp
      · obtain rfl : c = 'g' := by simpa using hlist
        simp
    · rcases hsec with rfl | rfl <;> simp at h

/-! ## Rows that come in -/

namespace Definition

theorem filter_slot {index : Nat} {rows : List Row} (h : ByPriority index rows) (test : Row → Bool)
    (row : Row) : (slot index rows row).filter test =
      if test row then slot index (rows.filter test) row else rows.filter test := by
  have hfilter : ∀ other : Row → Bool, (rows.filter other).filter test = (rows.filter test).filter other :=
    fun other => by simp only [List.filter_filter, Bool.and_comm]
  unfold slot
  rw [List.filter_append, List.filter_cons, hfilter, hfilter]
  split
  · rfl
  · exact (h.filter test).split (rowPriority index row)

/-- A row comes in at the same place among the rows that satisfy a test. -/
theorem filter_insert {d part : Definition} (horder : d.InOrder) (hpart : part.InOrder)
    (hbare : part.bare = d.bare) {test : Row → Bool} (hrows : part.rows = d.rows.filter test) (row : Row) :
    (d.insert row).rows.filter test = if test row then (part.insert row).rows else part.rows := by
  have hpriority : part.priority = d.priority := priority_eq hbare
  cases hindex : d.priority with
  | some index =>
    rw [rows_insert_eq horder hindex, rows_insert_eq hpart (hpriority.trans hindex), hrows,
      filter_slot (horder index hindex)]
  | none =>
    have hlast : (d.insert row).rows = d.rows ++ [row] := rows_insert_last (by simp [hindex])
    have hlast' : (part.insert row).rows = part.rows ++ [row] :=
      rows_insert_last (by simp [hpriority, hindex])
    rw [hlast, hlast', hrows, List.filter_append, List.filter_cons, List.filter_nil]
    split <;> simp

end Definition

namespace Model

/-- Whether a model has the definitions of another one and those of its rows that a filter accepts. -/
structure IsPart (filter : Filter) (m part : Model) : Prop where
  bare : part.bare = m.bare
  rows : ∀ sec, sec = "p" ∨ sec = "g" → ∀ name,
    part.rows sec name = filter.part sec (m.rows sec name)

/-- Whether the rows are in order and the index is right. -/
structure Orderly (m : Model) : Prop where
  wellFormed : m.WellFormed
  inOrder : m.InOrder

theorem add_eq_same {m : Model} {sec name : String} {d : Definition} (hsec : sec = "p" ∨ sec = "g")
    (hd : m.find? sec name = some d) {row : Row} (hlen : row.length = d.fields.length)
    (hold : d.contains row = true) : m.add sec name row = .ok (m, false) := by
  unfold add
  rw [findRows_eq hsec hd]
  dsimp only
  rw [(d.checkRow_ok_iff row).2 hlen]
  dsimp only
  rw [hold, if_pos rfl]

/-- What a row that is taken does: nothing if it is there, else it is inserted. -/
theorem Orderly.add_cases {m k : Model} (h : m.Orderly) {sec name : String} {row : Row} {changed : Bool}
    (hadd : m.add sec name row = .ok (k, changed)) :
    ∃ d, (sec = "p" ∨ sec = "g") ∧ m.find? sec name = some d ∧ row.length = d.fields.length ∧
      (row ∈ d.rows ∧ k = m ∨ row ∉ d.rows ∧ k = m.modify sec name (·.insert row)) := by
  unfold add at hadd
  split at hadd
  · simp at hadd
  · next d hd =>
    have hfound := find?_of_findRows hd
    have htidy := h.wellFormed.tidy sec name d hfound
    split at hadd
    · simp at hadd
    · next hcheck =>
      refine ⟨d, section_of_findRows hd, hfound, (d.checkRow_ok_iff row).1 hcheck, ?_⟩
      split at hadd
      · next hold =>
        exact Or.inl ⟨(htidy.contains_iff row).1 hold, (Prod.mk.inj (Except.ok.inj hadd)).1.symm⟩
      · next hnew =>
        exact Or.inr ⟨(htidy.contains_eq_false_iff row).1 (by simpa using hnew),
          (Prod.mk.inj (Except.ok.inj hadd)).1.symm⟩

theorem Orderly.add {m k : Model} (h : m.Orderly) {sec name : String} {row : Row} {changed : Bool}
    (hadd : m.add sec name row = .ok (k, changed)) : k.Orderly :=
  ⟨(evolves_add hadd).wellFormed h.wellFormed, h.inOrder.add hadd⟩

section

variable {filter : Filter} {m part : Model}

/-- The definition of a part with a name. -/
theorem IsPart.find? (h : IsPart filter m part) {sec : String} (hsec : sec = "p" ∨ sec = "g")
    {name : String} {d : Definition} (hd : m.find? sec name = some d) :
    ∃ x, part.find? sec name = some x ∧ x.bare = d.bare ∧ x.rows = filter.part sec d.rows := by
  obtain ⟨x, hx, hbare⟩ := find?_of_bare h.bare.symm hd
  refine ⟨x, hx, hbare, ?_⟩
  rw [← rows_of_find? hx, h.rows sec hsec name, rows_of_find? hd]

/-- A row that is accepted goes into both models, and the one stays a part of the other. -/
theorem IsPart.add (h : IsPart filter m part) (hm : m.Orderly) (hp : part.Orderly) {sec name : String}
    {row : Row} {k : Model} {changed : Bool} (hadd : m.add sec name row = .ok (k, changed))
    (hmeets : FirstFieldsAre (filter.values sec) row) :
    ∃ l changed', part.add sec name row = .ok (l, changed') ∧ IsPart filter k l := by
  obtain ⟨d, hsec, hd, hlen, hcases⟩ := hm.add_cases hadd
  obtain ⟨x, hx, hbare, hrows⟩ := h.find? hsec hd
  have htidy := hp.wellFormed.tidy sec name x hx
  have hlen' : row.length = x.fields.length := by rw [Definition.fields_eq hbare, hlen]
  have hmem : row ∈ x.rows ↔ row ∈ d.rows := by
    rw [hrows, Filter.part, List.mem_filter]
    simp [hmeets]
  rcases hcases with ⟨hold, rfl⟩ | ⟨hnew, rfl⟩
  · exact ⟨part, false, add_eq_same hsec hx hlen' ((htidy.contains_iff row).2 (hmem.2 hold)), h⟩
  · refine ⟨_, true,
      add_eq hsec hx hlen' ((htidy.contains_eq_false_iff row).2 (mt hmem.1 hnew)), ?_, ?_⟩
    · rw [bare_modify _ _ _ fun d => d.bare_insert row, bare_modify _ _ _ fun d => d.bare_insert row]
      exact h.bare
    · intro other hother otherName
      by_cases hsame : sec = other ∧ name = otherName
      · obtain ⟨rfl, rfl⟩ := hsame
        rw [rows_of_find? (find?_modify_self hx _), rows_of_find? (find?_modify_self hd _), Filter.part,
          Definition.filter_insert (hm.inOrder sec name d hd) (hp.inOrder sec name x hx) hbare hrows]
        simp [hmeets]
      · rw [rows_modify_of_ne _ _ _ _ hsame, rows_modify_of_ne _ _ _ _ hsame]
        exact h.rows other hother otherName

/-- A row that is not accepted goes into the whole model only. -/
theorem IsPart.skip (h : IsPart filter m part) (hm : m.Orderly) {sec name : String} {row : Row} {k : Model}
    {changed : Bool} (hadd : m.add sec name row = .ok (k, changed))
    (hmeets : ¬ FirstFieldsAre (filter.values sec) row) : IsPart filter k part := by
  obtain ⟨d, hsec, hd, -, ⟨-, rfl⟩ | ⟨-, rfl⟩⟩ := hm.add_cases hadd
  · exact h
  · refine ⟨?_, fun other hother otherName => ?_⟩
    · rw [bare_modify _ _ _ fun d => d.bare_insert row]
      exact h.bare
    · by_cases hsame : sec = other ∧ name = otherName
      · obtain ⟨rfl, rfl⟩ := hsame
        obtain ⟨x, hx, hbare, hrows⟩ := h.find? hsec hd
        -- the rows that are accepted, put in their own definition
        have horder : ({ d with rows := x.rows } : Definition).InOrder := fun index hindex =>
          hrows ▸ (hm.inOrder sec name d hd index hindex).filter _
        rw [rows_of_find? hx, rows_of_find? (find?_modify_self hd _), Filter.part,
          Definition.filter_insert (hm.inOrder sec name d hd) horder rfl hrows]
        simp [hmeets]
      · rw [rows_modify_of_ne _ _ _ _ hsame]
        exact h.rows other hother otherName

/-- **Lines that are accepted.**  When lines go into a model, those of them that a filter accepts go into
a part of it, which comes out as a part. -/
theorem IsPart.addLines (h : IsPart filter m part) (hm : m.Orderly) (hp : part.Orderly)
    {lines : List Line} {k : Model} (hlines : m.addLines lines = (.ok (), k)) :
    ∃ l, part.addLines (lines.filter filter.accepts) = (.ok (), l) ∧ IsPart filter k l ∧ k.Orderly ∧
      l.Orderly := by
  induction lines generalizing m part with
  | nil =>
    rw [← (Prod.mk.inj hlines).2]
    exact ⟨part, rfl, h, hm, hp⟩
  | cons line rest ih =>
    rw [Model.addLines] at hlines
    split at hlines
    · next next hnext =>
      cases line with
      | nil =>
        rw [← Except.ok.inj hnext] at hlines
        exact ih h hm hp hlines
      | cons name row =>
        unfold addLine at hnext
        dsimp only at hnext
        split at hnext
        · next added changed hadd =>
          rw [Except.ok.inj hnext] at hadd
          obtain ⟨d, hsec, -⟩ := hm.add_cases hadd
          by_cases hmeets : FirstFieldsAre (filter.values (sectionOf name)) row
          · obtain ⟨l, changed', hadd', hpart⟩ := h.add hm hp hadd hmeets
            obtain ⟨last, hlast, hrest⟩ := ih hpart (hm.add hadd) (hp.add hadd') hlines
            refine ⟨last, ?_, hrest⟩
            rw [List.filter_cons_of_pos (by rw [filter.accepts_cons hsec rfl, decide_eq_true hmeets]),
              Model.addLines, addLine, hadd']
            exact hlast
          · rw [List.filter_cons_of_neg
              (by rw [filter.accepts_cons hsec rfl, decide_eq_false hmeets]; simp)]
            exact ih (h.skip hm hadd hmeets) (hm.add hadd) hp hlines
        · simp at hnext
    · simp at hlines

end

/-- Without rows every model is a part. -/
theorem isPart_clear (filter : Filter) {m k : Model} (h : k.bare = m.bare) :
    IsPart filter m.clear k.clear := by
  have hempty : ∀ (x : Model) (sec : String), sec = "p" ∨ sec = "g" → ∀ name, x.clear.rows sec name = [] := by
    intro x sec hsec name
    rw [rows, x.find?_clear hsec]
    cases x.find? sec name <;> rfl
  refine ⟨by rw [bare_clear, bare_clear, h], fun sec hsec name => ?_⟩
  rw [hempty k sec hsec, hempty m sec hsec]
  rfl

/-- Rows that are not there are in order. -/
theorem Prioritized.orderly_clear {m : Model} (h : m.Prioritized) (hm : m.WellFormed) :
    m.clear.Orderly := by
  refine ⟨hm.clear, fun sec name d hd => ?_⟩
  by_cases hsec : sec = "p" ∨ sec = "g"
  · rw [m.find?_clear hsec] at hd
    obtain ⟨old, -, rfl⟩ := Option.map_eq_some_iff.1 hd
    exact old.inOrder_clear
  · -- only policy rows have priorities
    have hnone := h.of_bare m.bare_clear sec name d hd
    rw [if_neg (by rintro rfl; exact hsec (Or.inl rfl))] at hnone
    intro index hindex
    simp [hnone] at hindex

end Model

end AccessControl
