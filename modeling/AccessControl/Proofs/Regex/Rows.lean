import AccessControl.Proofs.Regex.Matches
/-!
# Patterns in a row

A row of patterns is written in one way, with its parts laid open and its literals joined.  It matches as
the patterns do one after the other (`leads_concat`), whatever they are.
-/

namespace AccessControl.Regex.Pattern

/-- A match of patterns one after the other. -/
def LeadsAll (text : Array Char) : List Pattern → Place → Place → Prop
  | [], p, q => q = p
  | P :: rest, p, q => ∃ r, P.Leads text p r ∧ LeadsAll text rest r q

variable {text : Array Char} {P : Pattern} {ps rest : List Pattern} {p q : Place}

theorem leadsAll_append :
    LeadsAll text (ps ++ rest) p q ↔ ∃ r, LeadsAll text ps p r ∧ LeadsAll text rest r q := by
  induction ps generalizing p with
  | nil => simp [LeadsAll]
  | cons P ps ih =>
    simp only [List.cons_append, LeadsAll, ih]
    constructor
    · rintro ⟨r, hr, s, hs, hq⟩
      exact ⟨s, ⟨r, hr, hs⟩, hq⟩
    · rintro ⟨s, ⟨r, hr, hs⟩, hq⟩
      exact ⟨r, hr, s, hs, hq⟩

theorem leadsAll_singleton : LeadsAll text [P] p q ↔ P.Leads text p q := by
  simp only [LeadsAll]
  constructor
  · rintro ⟨r, hr, rfl⟩
    exact hr
  · intro h
    exact ⟨q, h, rfl⟩

theorem leads_foldl_seq :
    (rest.foldl .seq P).Leads text p q ↔ LeadsAll text (P :: rest) p q := by
  induction rest generalizing P with
  | nil => exact leadsAll_singleton.symm
  | cons Q rest ih =>
    rw [List.foldl_cons, ih]
    simp only [LeadsAll, Leads]
    constructor
    · rintro ⟨r, ⟨s, hs, hr⟩, hq⟩
      exact ⟨s, hs, r, hr, hq⟩
    · rintro ⟨s, hs, r, hr, hq⟩
      exact ⟨r, ⟨s, hs, hr⟩, hq⟩

theorem leads_row : (row ps).Leads text p q ↔ LeadsAll text ps p q := by
  cases ps with
  | nil => exact Iff.rfl
  | cons P rest => exact leads_foldl_seq

theorem leadsAll_partsOnto :
    LeadsAll text (P.partsOnto rest) p q ↔ LeadsAll text (P :: rest) p q := by
  induction P generalizing p rest with
  | seq a b iha ihb =>
    rw [partsOnto, iha]
    simp only [LeadsAll, Leads, ihb]
    constructor
    · rintro ⟨s, hs, r, hr, hq⟩
      exact ⟨r, ⟨s, hs, hr⟩, hq⟩
    · rintro ⟨r, ⟨s, hs, hr⟩, hq⟩
      exact ⟨s, hs, r, hr, hq⟩
  | _ => exact Iff.rfl

theorem leadsAll_flatMap_parts : LeadsAll text (ps.flatMap parts) p q ↔ LeadsAll text ps p q := by
  induction ps generalizing p with
  | nil => exact Iff.rfl
  | cons P ps ih =>
    have hparts : ∀ r, LeadsAll text P.parts p r ↔ P.Leads text p r := fun r => by
      rw [parts, leadsAll_partsOnto, leadsAll_singleton]
    simp only [List.flatMap_cons, leadsAll_append, hparts, ih]
    exact Iff.rfl

/-- Two literals in a row are one. -/
theorem leads_literal_append {cs ds : List Char} : (Pattern.literal (cs ++ ds)).Leads text p q ↔
    ∃ r, (Pattern.literal cs).Leads text p r ∧ (Pattern.literal ds).Leads text r q := by
  simp only [Leads]
  constructor
  · rintro ⟨⟨rest, hrest⟩, rfl⟩
    have hdrop : text.toList.drop (p.pos + cs.length) = ds ++ rest := by
      rw [← List.drop_drop, ← hrest, List.append_assoc, List.drop_left]
    exact ⟨_, ⟨⟨ds ++ rest, by rw [← hrest, List.append_assoc]⟩, rfl⟩, ⟨rest, hdrop.symm⟩,
      by simp [Nat.add_assoc]⟩
  · rintro ⟨r, ⟨⟨rest, hrest⟩, rfl⟩, ⟨more, hmore⟩, rfl⟩
    dsimp only at hmore
    rw [← List.drop_drop, ← hrest, List.drop_left] at hmore
    exact ⟨⟨more, by rw [← hrest, ← hmore, List.append_assoc]⟩, by simp [Nat.add_assoc]⟩

theorem leadsAll_joinLiterals : LeadsAll text (joinLiterals ps) p q ↔ LeadsAll text ps p q := by
  fun_induction joinLiterals ps generalizing p with
  | case1 => exact Iff.rfl
  | case2 rest ih => simp [ih, LeadsAll, Leads]
  | case3 cs rest ds joined heq ih =>
    rw [heq] at ih
    simp only [LeadsAll, leads_literal_append] at ih ⊢
    constructor
    · rintro ⟨r, ⟨s, hs, hr⟩, hq⟩
      exact ⟨s, hs, ih.1 ⟨r, hr, hq⟩⟩
    · rintro ⟨s, hs, hq⟩
      obtain ⟨r, hr, hq⟩ := ih.2 hq
      exact ⟨r, ⟨s, hs, hr⟩, hq⟩
  | case4 cs rest hne ih => simp only [LeadsAll, ih]
  | case5 P rest hne hliteral ih => simp only [LeadsAll, ih]

/-- A row matches as its patterns one after the other. -/
theorem leads_concat : (concat ps).Leads text p q ↔ LeadsAll text ps p q := by
  rw [concat, leads_row, leadsAll_joinLiterals, leadsAll_flatMap_parts]

/-! ## What is repeated in a row -/

theorem repeatsChars_foldl_seq (hP : P.RepeatsChars) (h : ∀ Q ∈ rest, Q.RepeatsChars) :
    (rest.foldl .seq P).RepeatsChars := by
  induction rest generalizing P with
  | nil => exact hP
  | cons Q rest ih =>
    exact ih ⟨hP, h Q List.mem_cons_self⟩ fun R hR => h R (List.mem_cons_of_mem _ hR)

theorem repeatsChars_partsOnto (hP : P.RepeatsChars) (h : ∀ Q ∈ rest, Q.RepeatsChars) :
    ∀ Q ∈ P.partsOnto rest, Q.RepeatsChars := by
  induction P generalizing rest with
  | seq a b iha ihb => exact iha hP.1 (ihb hP.2 h)
  | _ => exact List.forall_mem_cons.2 ⟨hP, h⟩

theorem repeatsChars_joinLiterals (h : ∀ Q ∈ ps, Q.RepeatsChars) :
    ∀ Q ∈ joinLiterals ps, Q.RepeatsChars := by
  fun_induction joinLiterals ps with
  | case1 => exact h
  | case2 rest ih => exact ih (List.forall_mem_cons.1 h).2
  | case3 cs rest ds joined heq ih =>
    rw [heq] at ih
    exact List.forall_mem_cons.2
      ⟨trivial, (List.forall_mem_cons.1 (ih (List.forall_mem_cons.1 h).2)).2⟩
  | case4 cs rest hne ih => exact List.forall_mem_cons.2 ⟨trivial, ih (List.forall_mem_cons.1 h).2⟩
  | case5 P rest hne hliteral ih =>
    obtain ⟨hP, hrest⟩ := List.forall_mem_cons.1 h
    exact List.forall_mem_cons.2 ⟨hP, ih hrest⟩

theorem repeatsChars_concat (h : ∀ Q ∈ ps, Q.RepeatsChars) : (concat ps).RepeatsChars := by
  have hparts : ∀ Q ∈ ps.flatMap parts, Q.RepeatsChars := by
    intro Q hQ
    obtain ⟨P, hP, hmem⟩ := List.mem_flatMap.1 hQ
    exact repeatsChars_partsOnto (h P hP) (List.forall_mem_nil _) Q hmem
  have hjoined := repeatsChars_joinLiterals hparts
  rw [concat]
  cases hrow : joinLiterals (ps.flatMap parts) with
  | nil => trivial
  | cons P rest =>
    rw [hrow] at hjoined
    obtain ⟨hP, hrest⟩ := List.forall_mem_cons.1 hjoined
    exact repeatsChars_foldl_seq hP hrest

end AccessControl.Regex.Pattern
