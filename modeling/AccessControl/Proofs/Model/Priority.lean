import AccessControl.Proofs.Model.Build
/-!
# Rows in the order of their priorities

A definition with a priority field keeps its rows in order while they come and go: a new row is put at the
place that a search by halving finds, and a changed one moves only when its priority changed.  The search
finds the right place because the rows are in order; sorting them then does nothing.

    the halving search finds where the rows that pass end              (`partitionPoint_append`)
    d.InOrder → (d.insert row).InOrder, and so for every change        (`InOrder.insert`, …)
    m.InOrder → m.sortByPriority = m                                   (`InOrder.sortByPriority_eq`)
    operations other than the sort by subjects keep rows in order      (`InOrder.run`)
-/

namespace AccessControl

namespace Definition

/-! ## Searching for a place -/

section

variable {before : Row → Bool} {rows : List Row} {n : Nat}
  (hpass : ∀ i < n, rows[i]?.any before = true) (hfail : ∀ i, n ≤ i → rows[i]?.any before = false)

include hpass hfail

/-- A round keeps the last row that passes in the range, if there is one. -/
theorem narrow_spec {fuel start size : Nat} (hfuel : size ≤ fuel) (hstart : start < n ∨ start = 0)
    (hend : n ≤ start + size) :
    (narrow before rows fuel start size < n ∨ narrow before rows fuel start size = 0) ∧
      n ≤ narrow before rows fuel start size + 1 := by
  induction fuel generalizing start size with
  | zero =>
    unfold narrow
    omega
  | succ fuel ih =>
    unfold narrow
    split
    · omega
    · dsimp only
      split
      · next hmiddle =>
        have hlt : start + size / 2 < n := by
          by_contra hge
          rw [hfail _ (by omega)] at hmiddle
          simp at hmiddle
        exact ih (by omega) (Or.inl hlt) (by omega)
      · next hmiddle =>
        have hge : n ≤ start + size / 2 := by
          by_contra hlt
          exact hmiddle (hpass _ (by omega))
        exact ih (by omega) hstart (by omega)

/-- The search finds where the rows that pass end. -/
theorem partitionPoint_eq (hn : n ≤ rows.length) : partitionPoint before rows = n := by
  obtain ⟨hlast, hnext⟩ :=
    narrow_spec hpass hfail (Nat.le_refl rows.length) (Or.inr rfl) (by omega)
  unfold partitionPoint
  dsimp only
  split
  · next hlt =>
    have hlt : narrow before rows rows.length 0 rows.length < n := by
      by_contra hge
      rw [hfail _ (by omega)] at hlt
      simp at hlt
    omega
  · next hge =>
    have hge : n ≤ narrow before rows rows.length 0 rows.length := by
      by_contra hlt
      exact hge (hpass _ (by omega))
    omega

end

theorem partitionPoint_append {before : Row → Bool} {front back : List Row}
    (hfront : ∀ r ∈ front, before r = true) (hback : ∀ r ∈ back, before r = false) :
    partitionPoint before (front ++ back) = front.length := by
  refine partitionPoint_eq (fun i hi => ?_) (fun i hi => ?_) (by simp)
  · rw [List.getElem?_append_left hi, List.getElem?_eq_getElem hi]
    exact hfront _ (List.getElem_mem hi)
  · rw [List.getElem?_append_right hi]
    cases hrow : back[i - front.length]? with
    | none => rfl
    | some row => exact hback row (List.mem_of_getElem? hrow)

/-! ## Rows in order -/

/-- Rows in the order of their priorities, the lowest number first. -/
def ByPriority (index : Nat) (rows : List Row) : Prop :=
  rows.Pairwise fun a b => rowPriority index a ≤ rowPriority index b

/-- Rows with one more, behind those of lower or equal priority and before the others. -/
def slot (index : Nat) (rows : List Row) (row : Row) : List Row :=
  (rows.filter fun r => decide (rowPriority index r ≤ rowPriority index row)) ++
    row :: rows.filter fun r => decide (rowPriority index row < rowPriority index r)

section

variable {index : Nat} {rows : List Row}

/-- Rows in order are those up to a priority followed by those above it. -/
theorem ByPriority.split (h : ByPriority index rows) (n : Int) :
    (rows.filter fun r => decide (rowPriority index r ≤ n)) ++
      (rows.filter fun r => decide (n < rowPriority index r)) = rows := by
  induction rows with
  | nil => rfl
  | cons row rest ih =>
    obtain ⟨hrow, hrest⟩ := List.pairwise_cons.1 h
    by_cases hle : rowPriority index row ≤ n
    · have hnot : ¬ n < rowPriority index row := by omega
      simp only [List.filter_cons, hle, hnot, decide_true, decide_false, if_true,
        Bool.false_eq_true, if_false, List.cons_append, ih hrest]
    · -- all rows that follow are above as well
      have hnone : (rest.filter fun r => decide (rowPriority index r ≤ n)) = [] := by
        rw [List.filter_eq_nil_iff]
        intro r hr
        have := hrow r hr
        simpa using by omega
      have hih := ih hrest
      rw [hnone, List.nil_append] at hih
      have hlt : n < rowPriority index row := by omega
      simp only [List.filter_cons, hle, hlt, decide_true, decide_false, if_true,
        Bool.false_eq_true, if_false, hnone, List.nil_append, hih]

/-- The place of a row is between those of lower or equal priority and the others. -/
theorem insertByPriority_append {front back : List Row} {row : Row}
    (hfront : ∀ r ∈ front, rowPriority index r ≤ rowPriority index row)
    (hback : ∀ r ∈ back, rowPriority index row < rowPriority index r) :
    insertByPriority index row (front ++ back) = front ++ row :: back := by
  unfold insertByPriority
  dsimp only
  rw [partitionPoint_append (fun r hr => decide_eq_true (hfront r hr))
    (fun r hr => decide_eq_false (Int.not_le.2 (hback r hr))), List.take_left, List.drop_left]

theorem mem_lower {n : Int} {r : Row}
    (h : r ∈ rows.filter fun r => decide (rowPriority index r ≤ n)) : rowPriority index r ≤ n :=
  of_decide_eq_true (List.mem_filter.1 h).2

theorem mem_higher {n : Int} {r : Row}
    (h : r ∈ rows.filter fun r => decide (n < rowPriority index r)) : n < rowPriority index r :=
  of_decide_eq_true (List.mem_filter.1 h).2

/-- Among rows in order, the search finds the place behind those of lower or equal priority. -/
theorem ByPriority.insertByPriority_eq (h : ByPriority index rows) (row : Row) :
    insertByPriority index row rows = slot index rows row := by
  conv_lhs => rw [← h.split (rowPriority index row)]
  exact insertByPriority_append (fun r hr => mem_lower hr) fun r hr => mem_higher hr

theorem ByPriority.filter (h : ByPriority index rows) (p : Row → Bool) :
    ByPriority index (rows.filter p) := List.Pairwise.filter p h

theorem ByPriority.slot (h : ByPriority index rows) (row : Row) :
    ByPriority index (slot index rows row) := by
  unfold ByPriority Definition.slot
  rw [List.pairwise_append, List.pairwise_cons]
  refine ⟨h.filter _, ⟨fun r hr => Int.le_of_lt (mem_higher hr), h.filter _⟩, fun r hr other hother => ?_⟩
  rcases List.mem_cons.1 hother with rfl | hother
  · exact mem_lower hr
  · exact Int.le_trans (mem_lower hr) (Int.le_of_lt (mem_higher hother))

/-- A row that comes in leaves the order of the others. -/
theorem ByPriority.slot_eq (h : ByPriority index rows) (row : Row) :
    ∃ front back, rows = front ++ back ∧ Definition.slot index rows row = front ++ row :: back ∧
      (∀ r ∈ front, rowPriority index r ≤ rowPriority index row) ∧
      ∀ r ∈ back, rowPriority index row < rowPriority index r :=
  ⟨_, _, (h.split (rowPriority index row)).symm, rfl, fun _ hr => mem_lower hr,
    fun _ hr => mem_higher hr⟩

/-- A row takes the place of another one of the same priority. -/
theorem ByPriority.swap {old new : Row} {front back : List Row}
    (h : ByPriority index (front ++ old :: back))
    (hsame : rowPriority index old = rowPriority index new) :
    ByPriority index (front ++ new :: back) := by
  unfold ByPriority at h ⊢
  rw [List.pairwise_append, List.pairwise_cons] at h ⊢
  obtain ⟨hfront, ⟨hold, hback⟩, hcross⟩ := h
  refine ⟨hfront, ⟨fun r hr => hsame ▸ hold r hr, hback⟩, fun r hr other hother => ?_⟩
  rcases List.mem_cons.1 hother with rfl | hother
  · exact hsame ▸ hcross r hr old List.mem_cons_self
  · exact hcross r hr other (List.mem_cons_of_mem _ hother)

end

/-- The first place of a row, with another one put there and with the row taken out. -/
theorem swapFirst_of_mem {old : Row} {rows : List Row} (h : old ∈ rows) (new : Row) :
    ∃ front back, rows = front ++ old :: back ∧ swapFirst old new rows = front ++ new :: back ∧
      rows.erase old = front ++ back := by
  induction rows with
  | nil => simp at h
  | cons r rest ih =>
    by_cases hr : r = old
    · exact ⟨[], rest, by simp [hr], by simp [swapFirst, hr], by simp [hr]⟩
    · have hmem : old ∈ rest := (List.mem_cons.1 h).resolve_left fun heq => hr heq.symm
      obtain ⟨front, back, hrest, hswap, herase⟩ := ih hmem
      refine ⟨r :: front, back, by simp [hrest], by simp [swapFirst, hr, hswap], ?_⟩
      rw [List.erase_cons_tail (by simpa using hr), herase, List.cons_append]

/-! ## Definitions in order -/

/-- Rows are in the order of their priorities, if they have any. -/
def InOrder (d : Definition) : Prop := ∀ index, d.priority = some index → ByPriority index d.rows

theorem priority_eq {d k : Definition} (h : d.bare = k.bare) : d.priority = k.priority := by
  show d.bare.priority = k.bare.priority
  rw [h]

theorem inOrder_of_nil {d : Definition} (h : d.rows = []) : d.InOrder := by
  intro index _
  rw [h]
  exact List.Pairwise.nil

theorem inOrder_clear (d : Definition) : d.clear.InOrder := inOrder_of_nil rfl

section

variable {d : Definition} {index : Nat}

theorem rows_insert_eq (h : d.InOrder) (hindex : d.priority = some index) (row : Row) :
    (d.insert row).rows = slot index d.rows row := by
  unfold Definition.insert place
  rw [hindex]
  exact (h index hindex).insertByPriority_eq row

theorem InOrder.insert (h : d.InOrder) (row : Row) : (d.insert row).InOrder := by
  intro index hindex
  rw [rows_insert_eq h hindex]
  exact (h index hindex).slot row

theorem InOrder.insertAll (h : d.InOrder) (rows : List Row) : (d.insertAll rows).InOrder := by
  induction rows generalizing d with
  | nil => exact h
  | cons row rest ih => exact ih (h.insert row)

/-- Rows come in one after the other, each at its place. -/
theorem rows_insertAll_eq (h : d.InOrder) (hindex : d.priority = some index) (rows : List Row) :
    (d.insertAll rows).rows = rows.foldl (slot index) d.rows := by
  induction rows generalizing d with
  | nil => rfl
  | cons row rest ih =>
    have hrest : (d.insertAll (row :: rest)).rows = ((d.insert row).insertAll rest).rows := rfl
    rw [hrest, ih (h.insert row) hindex, rows_insert_eq h hindex, List.foldl_cons]

/-- A row that no other one comes after goes to the end. -/
theorem rows_insert_last {row : Row} (h : ∀ index, d.priority = some index →
    ∀ r ∈ d.rows, rowPriority index r ≤ rowPriority index row) :
    (d.insert row).rows = d.rows ++ [row] := by
  unfold Definition.insert place
  cases hprior : d.priority with
  | none => rfl
  | some index =>
    have hlast : insertByPriority index row (d.rows ++ []) = d.rows ++ [row] :=
      insertByPriority_append (h index hprior) (by simp)
    rwa [List.append_nil] at hlast

/-- Rows that come in order stay in that order. -/
theorem rows_insertAll_last {rows : List Row} (h : ∀ index, d.priority = some index →
    ByPriority index (d.rows ++ rows)) : (d.insertAll rows).rows = d.rows ++ rows := by
  induction rows generalizing d with
  | nil => exact (List.append_nil d.rows).symm
  | cons row rest ih =>
    have hinsert : (d.insert row).rows = d.rows ++ [row] := rows_insert_last fun index hindex r hr =>
      (List.pairwise_append.1 (h index hindex)).2.2 r hr row List.mem_cons_self
    have hrest : ∀ index, (d.insert row).priority = some index →
        ByPriority index ((d.insert row).rows ++ rest) := by
      intro index hindex
      rw [hinsert, List.append_assoc]
      exact h index hindex
    have hih := ih hrest
    rwa [hinsert, List.append_assoc] at hih

theorem InOrder.erase (h : d.InOrder) (row : Row) : (d.erase row).InOrder := by
  unfold Definition.erase
  split
  · exact fun index hindex => (h index hindex).filter _
  · exact h

theorem InOrder.eraseAll (h : d.InOrder) (rows : List Row) : (d.eraseAll rows).InOrder := by
  induction rows generalizing d with
  | nil => exact h
  | cons row rest ih => exact ih (h.erase row)

theorem InOrder.eraseWhere (h : d.InOrder) (test : Row → Bool) : (d.eraseWhere test).1.InOrder :=
  fun index hindex => (h index hindex).filter _

/-- How one row takes the place of another: the other rows stay in their order, and the row moves only when
the priority is another one. -/
theorem rows_replace_eq (h : d.InOrder) (hindex : d.priority = some index) {old : Row}
    (hold : old ∈ d.rows) (new : Row) :
    ∃ front back front' back', d.rows = front ++ old :: back ∧
      (d.replace old new).rows = front' ++ new :: back' ∧ front' ++ back' = front ++ back ∧
      (rowPriority index old = rowPriority index new → front' = front) ∧
      (rowPriority index old ≠ rowPriority index new →
        (∀ r ∈ front', rowPriority index r ≤ rowPriority index new) ∧
          ∀ r ∈ back', rowPriority index new < rowPriority index r) := by
  obtain ⟨front, back, hrows, hswap, herase⟩ := swapFirst_of_mem hold new
  unfold Definition.replace
  rw [if_pos hold, hindex]
  dsimp only
  split
  · next hsame => exact ⟨front, back, front, back, hrows, hswap, rfl, fun _ => rfl, absurd hsame⟩
  · next hdiffers =>
    have hothers : ByPriority index (front ++ back) := by
      have hsorted := h index hindex
      unfold ByPriority at hsorted
      rw [hrows] at hsorted
      exact hsorted.sublist ((List.sublist_cons_self old back).append_left front)
    obtain ⟨front', back', hsplit, hslot, hfront, hback⟩ := hothers.slot_eq new
    rw [herase, hothers.insertByPriority_eq]
    exact ⟨front, back, front', back', hrows, hslot, hsplit.symm, (absurd · hdiffers),
      fun _ => ⟨hfront, hback⟩⟩

theorem InOrder.replace (h : d.InOrder) (old new : Row) : (d.replace old new).InOrder := by
  intro index hindex
  rw [priority_eq (bare_replace d old new)] at hindex
  have hsorted := h index hindex
  by_cases hold : old ∈ d.rows
  · obtain ⟨front, back, hrows, hswap, herase⟩ := swapFirst_of_mem hold new
    unfold Definition.replace
    rw [if_pos hold, hindex]
    dsimp only
    split
    · next hsame =>
      rw [hrows] at hsorted
      rw [hswap]
      exact hsorted.swap hsame
    · have hothers : ByPriority index (d.rows.erase old) :=
        List.Pairwise.sublist List.erase_sublist hsorted
      rw [hothers.insertByPriority_eq]
      exact hothers.slot new
  · unfold Definition.replace
    rwa [if_neg hold]

end

/-! ## Sorting -/

theorem byKey_trans {α : Type} (a b c : Int × α) (hab : decide (a.1 ≤ b.1) = true)
    (hbc : decide (b.1 ≤ c.1) = true) : decide (a.1 ≤ c.1) = true :=
  decide_eq_true (Int.le_trans (of_decide_eq_true hab) (of_decide_eq_true hbc))

theorem byKey_total {α : Type} (a b : Int × α) : (decide (a.1 ≤ b.1) || decide (b.1 ≤ a.1)) = true := by
  simpa using Int.le_total a.1 b.1

/-- Sorting puts before another what has a key up to that of the other. -/
theorem pairwise_sortByKey {α : Type} {rows : List (Int × α)} {before : α → α → Prop}
    (h : ∀ a ∈ rows, ∀ b ∈ rows, a.1 ≤ b.1 → before a.2 b.2) : (sortByKey rows).Pairwise before := by
  have hsorted : (rows.mergeSort fun a b => decide (a.1 ≤ b.1)).Pairwise
      fun a b => decide (a.1 ≤ b.1) :=
    List.pairwise_mergeSort byKey_trans byKey_total rows
  have hmem : ∀ a ∈ rows.mergeSort fun a b => decide (a.1 ≤ b.1), a ∈ rows :=
    fun a ha => (List.mergeSort_perm rows _).mem_iff.1 ha
  unfold sortByKey
  rw [List.pairwise_map]
  exact hsorted.imp_of_mem fun ha hb hle => h _ (hmem _ ha) _ (hmem _ hb) (of_decide_eq_true hle)

/-- What is in the order of the keys keeps its order when everything is sorted. -/
theorem filter_sortByKey {α : Type} {rows : List (Int × α)} {keep : α → Bool}
    (h : (rows.filter fun a => keep a.2).Pairwise fun a b => a.1 ≤ b.1) :
    (sortByKey rows).filter keep = (rows.map (·.2)).filter keep := by
  have hperm := List.mergeSort_perm rows fun a b => decide (a.1 ≤ b.1)
  have hsub : (rows.filter fun a => keep a.2).Sublist
      (rows.mergeSort fun a b => decide (a.1 ≤ b.1)) :=
    List.sublist_mergeSort byKey_trans byKey_total (h.imp fun hle => decide_eq_true hle)
      List.filter_sublist
  have hkept := hsub.filter fun a => keep a.2
  rw [List.filter_filter] at hkept
  simp only [Bool.and_self] at hkept
  unfold sortByKey
  rw [List.filter_map, List.filter_map]
  exact congrArg _ (hkept.eq_of_length (hperm.filter _).length_eq.symm).symm

/-- Rows in the order of a key stay as they are when they are sorted by it. -/
theorem sortByKey_of_pairwise {α : Type} {key : α → Int} {rows : List α}
    (h : rows.Pairwise fun a b => key a ≤ key b) :
    sortByKey (rows.map fun a => (key a, a)) = rows := by
  unfold sortByKey
  rw [List.mergeSort_of_pairwise, List.map_map]
  · exact List.map_id rows
  · rw [List.pairwise_map]
    exact h.imp fun hle => decide_eq_true hle

/-- The priority field is where the definition says it is. -/
def Prioritized (d : Definition) : Prop := d.priority = d.fieldIndex (d.key ++ "_priority")

theorem Prioritized.inOrder_sortByPriority {d : Definition} (h : d.Prioritized) :
    d.sortByPriority.InOrder := by
  intro index hindex
  rw [priority_eq (bare_sortByPriority d), h] at hindex
  unfold Definition.sortByPriority
  rw [hindex]
  refine pairwise_sortByKey fun a ha b hb hle => ?_
  obtain ⟨row, -, rfl⟩ := List.mem_map.1 ha
  obtain ⟨other, -, rfl⟩ := List.mem_map.1 hb
  exact hle

theorem InOrder.sortByPriority_eq {d : Definition} (h : d.InOrder) (hp : d.Prioritized) :
    d.sortByPriority = d := by
  unfold Definition.sortByPriority
  split
  · next index hindex => rw [sortByKey_of_pairwise (h index (hp.trans hindex))]
  · rfl

end Definition

/-! ## Models -/

namespace Model

/-- Policy definitions know the place of their priority field, and other rows have no priorities. -/
def Prioritized (m : Model) : Prop := ∀ sec name d, m.find? sec name = some d →
  if sec = "p" then d.Prioritized else d.priority = none

/-- The rows of all definitions are in order. -/
def InOrder (m : Model) : Prop := ∀ sec name d, m.find? sec name = some d → d.InOrder

/-- Whether an operation adds a definition. -/
def Operation.defines : Operation → Bool
  | .define .. => true
  | _ => false

/-- Only new definitions change the definitions. -/
theorem bare_apply (m : Model) {operation : Operation} (h : operation.defines = false) :
    (m.apply operation).bare = m.bare := by
  have hof : ∀ {α : Type} {result : Except Error (Model × α)},
      (∀ k a, result = .ok (k, a) → k.bare = m.bare) → (m.outcome result).bare = m.bare :=
    fun hok => outcome_of (P := fun k => k.bare = m.bare) rfl hok
  cases operation with
  | define => simp [Operation.defines] at h
  | add => exact hof fun _ _ h => (evolves_add h).bare
  | addMany => exact hof fun _ _ h => (evolves_addMany h).bare
  | addDuplicates sec name rows =>
    refine hof fun k _ h => ?_
    obtain ⟨-, -, -, rfl⟩ := addDuplicates_map_cases h
    exact m.bare_modify sec name fun d => d.bare_insertAll rows
  | remove sec name row =>
    refine hof fun k _ h => ?_
    rw [remove_cases h]
    exact (m.evolves_erase sec name row).bare
  | removeMany => exact hof fun _ _ h => (evolves_removeMany h).bare
  | replace => exact hof fun _ _ h => (evolves_replace h).bare
  | removeFiltered => exact hof fun _ _ h => (evolves_removeFiltered h).bare
  | clear => exact m.bare_clear
  | sortByPriority => exact m.bare_sortByPriority
  | sortBySubject => exact m.bare_sortBySubject

theorem Prioritized.of_bare {m k : Model} (hm : m.Prioritized) (h : k.bare = m.bare) :
    k.Prioritized := by
  intro sec name d hd
  obtain ⟨old, hold, heq⟩ := find?_of_bare h hd
  have hprior := hm sec name old hold
  unfold Definition.Prioritized Definition.fieldIndex at hprior ⊢
  rwa [Definition.priority_eq heq, Definition.fields_eq heq, Definition.key_eq heq] at hprior

theorem Prioritized.apply {m : Model} (hm : m.Prioritized) (operation : Operation) :
    (m.apply operation).Prioritized := by
  cases hdefines : operation.defines with
  | false => exact hm.of_bare (m.bare_apply hdefines)
  | true =>
    cases operation with
    | define sec key value =>
      intro other name d hd
      replace hd : (m.define sec key value).1.find? other name = some d := hd
      rw [find?_define] at hd
      split at hd
      · next heq =>
        obtain ⟨-, rfl, -⟩ := heq
        rw [← Option.some.inj hd]
        split
        · next hsec => exact if_pos hsec
        · next hsec => exact if_neg hsec
      · exact hm other name d hd
    | _ => simp [Operation.defines] at hdefines

theorem Prioritized.run {m : Model} (hm : m.Prioritized) (operations : List Operation) :
    (m.run operations).Prioritized := by
  induction operations generalizing m with
  | nil => exact hm
  | cons operation rest ih => exact ih (hm.apply operation)

theorem prioritized_empty : ({} : Model).Prioritized := fun sec name d hd => by simp [find?] at hd

theorem Built.prioritized {m : Model} (h : m.Built) : m.Prioritized := by
  obtain ⟨operations, rfl⟩ := h
  exact prioritized_empty.run operations

theorem InOrder.modify {m : Model} (h : m.InOrder) (sec name : String)
    {f : Definition → Definition} (hf : ∀ d, d.InOrder → (f d).InOrder) :
    (m.modify sec name f).InOrder := by
  intro other otherName d hd
  rw [find?_modify] at hd
  split at hd
  · obtain ⟨old, hold, rfl⟩ := Option.map_eq_some_iff.1 hd
    exact hf old (h _ _ old hold)
  · exact h other otherName d hd

theorem inOrder_clear {m : Model} (h : m.InOrder) : m.clear.InOrder := by
  intro sec name d hd
  simp only [clear, find?_modifyAll] at hd
  split at hd
  · obtain ⟨old, -, rfl⟩ := Option.map_eq_some_iff.1 hd
    exact old.inOrder_clear
  · split at hd
    · obtain ⟨old, -, rfl⟩ := Option.map_eq_some_iff.1 hd
      exact old.inOrder_clear
    · exact h sec name d hd

/-- Sorting by priorities puts all rows in order, whatever order they had. -/
theorem Prioritized.inOrder_sortByPriority {m : Model} (h : m.Prioritized) :
    m.sortByPriority.InOrder := by
  intro sec name d hd
  rw [sortByPriority, find?_modifyAll] at hd
  split at hd
  · next hsec =>
    obtain ⟨old, hold, rfl⟩ := Option.map_eq_some_iff.1 hd
    have hold' := h sec name old hold
    rw [if_pos hsec.symm] at hold'
    exact hold'.inOrder_sortByPriority
  · next hsec =>
    have hd' := h sec name d hd
    rw [if_neg (Ne.symm hsec)] at hd'
    intro index hindex
    simp [hd'] at hindex

/-- Rows in order stay as they are when they are sorted. -/
theorem InOrder.sortByPriority_eq {m : Model} (h : m.InOrder) (hp : m.Prioritized) (hm : m.Named) :
    m.sortByPriority = m := by
  refine congrArg Model.mk (Table.update_of_find fun defs hdefs => ?_)
  refine (List.map_congr_left fun e he => ?_).trans (List.map_id defs)
  have hfound : m.find? "p" e.1 = some e.2 := by
    rw [find?, hdefs, Option.bind_some, Table.find_eq_some_iff (hm.distinct "p" defs hdefs)]
    exact he
  exact Prod.ext rfl ((h "p" e.1 e.2 hfound).sortByPriority_eq (hp "p" e.1 e.2 hfound))

theorem InOrder.add {m k : Model} (h : m.InOrder) {sec name : String} {row : Row} {changed : Bool}
    (hadd : m.add sec name row = .ok (k, changed)) : k.InOrder := by
  rcases add_cases hadd with rfl | ⟨d, -, -, -, rfl⟩
  · exact h
  · exact h.modify sec name fun d hd => hd.insert row

/-- An operation keeps rows in order, unless it puts them in the order of their subjects. -/
theorem InOrder.apply {m : Model} (h : m.InOrder) (hp : m.Prioritized) {operation : Operation}
    (hop : operation ≠ .sortBySubject) : (m.apply operation).InOrder := by
  cases operation with
  | define sec key value =>
    intro other name d hd
    replace hd : (m.define sec key value).1.find? other name = some d := hd
    rw [find?_define] at hd
    split at hd
    · rw [← Option.some.inj hd]
      exact Definition.inOrder_of_nil rfl
    · exact h other name d hd
  | add => exact outcome_of h fun _ _ hk => h.add hk
  | addMany sec name rows =>
    refine outcome_of h fun k _ hk => ?_
    rcases addMany_cases hk with rfl | ⟨d, -, -, -, -, rfl⟩
    · exact h
    · exact h.modify sec name fun d hd => hd.insertAll rows
  | addDuplicates sec name rows =>
    refine outcome_of h fun k _ hk => ?_
    obtain ⟨-, -, -, rfl⟩ := addDuplicates_map_cases hk
    exact h.modify sec name fun d hd => hd.insertAll rows
  | remove sec name row =>
    refine outcome_of h fun k _ hk => ?_
    rw [remove_cases hk]
    exact h.modify sec name fun d hd => hd.erase row
  | removeMany sec name rows =>
    refine outcome_of h fun k _ hk => ?_
    rcases removeMany_cases hk with rfl | rfl
    · exact h
    · exact h.modify sec name fun d hd => hd.eraseAll rows
  | replace sec name old new =>
    refine outcome_of h fun k _ hk => ?_
    rcases replace_cases hk with rfl | ⟨d, -, -, -, -, rfl⟩
    · exact h
    · exact h.modify sec name fun d hd => hd.replace old new
  | removeFiltered sec name index values =>
    refine outcome_of h fun k _ hk => ?_
    rcases removeFiltered_cases hk with ⟨rfl, -⟩ | ⟨d, -, -, rfl⟩
    · exact h
    · exact h.modify sec name fun d hd => hd.eraseWhere _
  | clear => exact inOrder_clear h
  | sortByPriority => exact hp.inOrder_sortByPriority
  | sortBySubject => exact absurd rfl hop

/-- Operations build rows in order, as long as none puts them in the order of their subjects. -/
theorem InOrder.run {m : Model} (h : m.InOrder) (hp : m.Prioritized) {operations : List Operation}
    (hops : ∀ operation ∈ operations, operation ≠ .sortBySubject) : (m.run operations).InOrder := by
  induction operations generalizing m with
  | nil => exact h
  | cons operation rest ih =>
    rw [List.forall_mem_cons] at hops
    exact ih (h.apply hp hops.1) (hp.apply operation) hops.2

theorem inOrder_build {operations : List Operation}
    (hops : ∀ operation ∈ operations, operation ≠ .sortBySubject) : (build operations).InOrder := by
  refine InOrder.run (fun sec name d hd => ?_) prioritized_empty hops
  simp [find?] at hd

end Model

end AccessControl
