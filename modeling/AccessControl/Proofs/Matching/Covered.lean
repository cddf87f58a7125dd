import AccessControl.Proofs.Regex.Reach
import AccessControl.Proofs.Regex.Reading
import AccessControl.Proofs.Regex.Rows
/-!
# Keys covered by a pattern

A pattern covers a key when its parameters have values that make the key of it (`Covers`): its characters
stand for themselves, and a value is a segment, which is not empty and has no slash.

    a match of the pieces of a pattern leads over a covered text       (`Covers.of_leadsAll`)
    over a covered text there is a match                               (`Covers.exists_leadsAll`)

Parameters are remembered as groups, and the texts of the groups are the values.
-/

namespace AccessControl

open Regex

/-- A value of a parameter. -/
def IsSegment (value : List Char) : Prop := value ≠ [] ∧ '/' ∉ value

/-- Pieces become a text when their parameters have values. -/
inductive Covers : List Piece → List (List Char) → List Char → Prop
  | nil : Covers [] [] []
  | char {rest values cs} (c : Char) (h : Covers rest values cs) :
    Covers (.char c :: rest) values (c :: cs)
  | param {rest values cs} (name : List Char) {value : List Char} (hvalue : IsSegment value)
    (h : Covers rest values cs) : Covers (.param name :: rest) (value :: values) (value ++ cs)

variable {text : Array Char} {n : Nat} {p q : Place} {pieces : List Piece} {values : List (List Char)}
  {cs : List Char}

theorem Covers.length_values (h : Covers pieces values cs) :
    values.length = (paramNames pieces).length := by
  induction h with
  | nil => rfl
  | char c h ih => exact ih
  | param name hvalue h ih => exact congrArg (· + 1) ih

/-! ## Segments -/

/-- Steps over characters of a set lead over a text of such characters. -/
theorem steps_chars_iff {set : CharSet} : Steps ((Pattern.chars set).Leads text) n p q ↔
    ∃ v : List Char, v.length = n ∧ (∀ c ∈ v, set.contains c = true) ∧ v <+: text.toList.drop p.pos ∧
      q = { p with pos := p.pos + n } := by
  induction n generalizing p with
  | zero =>
    constructor
    · rintro rfl
      exact ⟨[], rfl, List.forall_mem_nil _, List.nil_prefix, rfl⟩
    · rintro ⟨v, -, -, -, rfl⟩
      rfl
  | succ n ih =>
    constructor
    · rintro ⟨r, ⟨c, hc, hset, rfl⟩, hsteps⟩
      obtain ⟨v, rfl, hv, hdrop, rfl⟩ := ih.1 hsteps
      refine ⟨c :: v, rfl, List.forall_mem_cons.2 ⟨hset, hv⟩, ?_, by simp [Nat.add_assoc, Nat.add_comm 1]⟩
      rw [Place.getElem?_eq_some_iff_drop.1 hc, List.cons_prefix_cons]
      exact ⟨rfl, hdrop⟩
    · rintro ⟨v, hlength, hv, ⟨after, hafter⟩, rfl⟩
      cases v with
      | nil => exact absurd hlength (by simp)
      | cons c v =>
        obtain ⟨hset, hv⟩ := List.forall_mem_cons.1 hv
        have hdrop : text.toList.drop (p.pos + 1) = v ++ after := by
          rw [← List.drop_drop, ← hafter]
          rfl
        have hc : text[p.pos]? = some c := by
          rw [Place.getElem?_eq_some_iff_drop, hdrop, ← hafter]
          rfl
        refine ⟨_, ⟨c, hc, hset, rfl⟩, ih.2 ⟨v, Nat.succ.inj hlength, hv, ⟨after, hdrop.symm⟩, ?_⟩⟩
        simp [Nat.add_assoc, Nat.add_comm 1]

theorem forall_contains_noSlash {v : List Char} :
    (∀ c ∈ v, noSlash.contains c = true) ↔ '/' ∉ v := by
  simp only [contains_noSlash]
  exact ⟨fun h hmem => h _ hmem rfl, fun h c hc heq => h (heq ▸ hc)⟩

theorem leads_segmentPattern : (segmentPattern n).Leads text p q ↔
    ∃ v, IsSegment v ∧ v <+: text.toList.drop p.pos ∧
      q = ⟨p.pos + v.length, (n, p.pos, p.pos + v.length) :: p.groups⟩ := by
  constructor
  · rintro ⟨r, ⟨more, -, hsteps⟩, rfl⟩
    obtain ⟨v, hlength, hv, hdrop, rfl⟩ := steps_chars_iff.1 hsteps
    refine ⟨v, ⟨?_, forall_contains_noSlash.1 hv⟩, hdrop, by rw [hlength]⟩
    rintro rfl
    simp only [List.length_nil] at hlength
    omega
  · rintro ⟨v, ⟨hne, hv⟩, hdrop, rfl⟩
    have hpos := List.length_pos_iff.2 hne
    have hlength : v.length = 1 + (v.length - 1) := by omega
    have hsteps := steps_chars_iff.2 ⟨v, hlength, forall_contains_noSlash.2 hv, hdrop, rfl⟩
    exact ⟨_, ⟨v.length - 1, by simp, hsteps⟩, by rw [← hlength]⟩

/-! ## Pieces -/

open Pattern (LeadsAll groupText?)

/-- A group of another number does not show. -/
theorem groupText?_cons_of_ne {i j start stop : Nat} (h : i ≠ j) {groups : List (Nat × Nat × Nat)}
    {pos pos' : Nat} : groupText? text ⟨pos, (j, start, stop) :: groups⟩ i =
      groupText? text ⟨pos', groups⟩ i := by
  simp [groupText?, Place.group?, Ne.symm h]

/-- The pieces of a pattern match a covered text only, and remember the values. -/
theorem Covers.of_leadsAll (h : LeadsAll text (piecePatterns n pieces) p q) :
    ∃ values cs, Covers pieces values cs ∧ cs <+: text.toList.drop p.pos ∧ q.pos = p.pos + cs.length ∧
      (∀ i < n, groupText? text q i = groupText? text p i) ∧
      ∀ i v, values[i]? = some v → groupText? text q (n + i) = some v := by
  -- later parameters have greater numbers, so they leave the texts of the groups below `n`
  induction pieces generalizing n p with
  | nil =>
    obtain rfl : q = p := h
    exact ⟨[], [], .nil, List.nil_prefix, rfl, fun _ _ => rfl, by simp⟩
  | cons piece rest ih =>
    cases piece with
    | char c =>
      obtain ⟨r, hr, hrest⟩ := h
      obtain ⟨values, cs, hcovers, hcs, hpos, hbelow, htexts⟩ := ih hrest
      obtain ⟨⟨after, hafter⟩, rfl⟩ := hr
      have hdrop : text.toList.drop (p.pos + 1) = after := by
        rw [← List.drop_drop, ← hafter]
        rfl
      refine ⟨values, c :: cs, hcovers.char c, ?_, by simp [hpos]; omega, hbelow, htexts⟩
      rw [← hafter]
      exact List.cons_prefix_cons.2 ⟨rfl, hdrop ▸ hcs⟩
    | param name =>
      obtain ⟨r, hr, hrest⟩ := h
      obtain ⟨values, cs, hcovers, hcs, hpos, hbelow, htexts⟩ := ih hrest
      obtain ⟨v, hv, ⟨after, hafter⟩, rfl⟩ := leads_segmentPattern.1 hr
      have hdrop : text.toList.drop (p.pos + v.length) = after := by
        rw [← List.drop_drop, ← hafter, List.drop_left]
      refine ⟨v :: values, v ++ cs, hcovers.param name hv, ?_, by simp [hpos]; omega, ?_, ?_⟩
      · rw [← hafter]
        exact (List.prefix_append_right_inj v).2 (hdrop ▸ hcs)
      · intro i hi
        rw [hbelow i (by omega)]
        exact groupText?_cons_of_ne (by omega)
      · intro i w hw
        cases i with
        | zero =>
          obtain rfl : v = w := by simpa using hw
          rw [Nat.add_zero, hbelow n (by omega)]
          simp [groupText?, Place.group?, ← hafter]
        | succ i =>
          rw [show n + (i + 1) = n + 1 + i by omega]
          exact htexts i w (by simpa using hw)

/-- Over a covered text the pieces match. -/
theorem Covers.exists_leadsAll (h : Covers pieces values cs) (hcs : cs <+: text.toList.drop p.pos) :
    ∃ q, LeadsAll text (piecePatterns n pieces) p q ∧ q.pos = p.pos + cs.length := by
  induction h generalizing n p with
  | nil => exact ⟨p, rfl, rfl⟩
  | @char rest values cs c h ih =>
    obtain ⟨after, hafter⟩ := hcs
    have hdrop : text.toList.drop (p.pos + 1) = cs ++ after := by
      rw [← List.drop_drop, ← hafter]
      rfl
    obtain ⟨q, hq, hpos⟩ := ih (n := n) (p := { p with pos := p.pos + 1 }) ⟨after, hdrop.symm⟩
    refine ⟨q, ⟨_, ⟨?_, rfl⟩, hq⟩, by simp [hpos]; omega⟩
    rw [← hafter]
    exact List.cons_prefix_cons.2 ⟨rfl, List.nil_prefix⟩
  | @param rest values cs name v hv h ih =>
    obtain ⟨after, hafter⟩ := hcs
    rw [List.append_assoc] at hafter
    have hdrop : text.toList.drop (p.pos + v.length) = cs ++ after := by
      rw [← List.drop_drop, ← hafter, List.drop_left]
    obtain ⟨q, hq, hpos⟩ := ih (n := n + 1)
      (p := ⟨p.pos + v.length, (n, p.pos, p.pos + v.length) :: p.groups⟩) ⟨after, hdrop.symm⟩
    exact ⟨q, ⟨_, leads_segmentPattern.2 ⟨v, hv, ⟨cs ++ after, hafter⟩, rfl⟩, hq⟩,
      by simp [hpos]; omega⟩

/-! ## Whole keys -/

theorem leads_keyPattern : (keyPattern pieces).Leads text p q ↔
    p.pos = 0 ∧ LeadsAll text (piecePatterns 1 pieces) p q ∧ q.pos = text.size := by
  simp only [keyPattern, Pattern.leads_concat, LeadsAll, Pattern.leadsAll_append, Pattern.Leads,
    Look.holds, beq_iff_eq]
  constructor
  · rintro ⟨_, ⟨hstart, rfl⟩, r, hr, _, ⟨hend, rfl⟩, rfl⟩
    exact ⟨hstart, hr, hend⟩
  · rintro ⟨hstart, h, hend⟩
    exact ⟨p, ⟨hstart, rfl⟩, q, h, q, ⟨hend, rfl⟩, rfl⟩

theorem repeatsChars_keyPattern : (keyPattern pieces).RepeatsChars := by
  have hpieces (n : Nat) : ∀ P ∈ piecePatterns n pieces, P.RepeatsChars := by
    induction pieces generalizing n with
    | nil => exact List.forall_mem_nil _
    | cons piece rest ih =>
      cases piece with
      | char c => exact List.forall_mem_cons.2 ⟨trivial, ih n⟩
      | param name => exact List.forall_mem_cons.2 ⟨trivial, ih (n + 1)⟩
  refine Pattern.repeatsChars_concat (List.forall_mem_cons.2 ⟨trivial, fun P hP => ?_⟩)
  rcases List.mem_append.1 hP with hpiece | hend
  · exact hpieces 1 P hpiece
  · obtain rfl := List.mem_singleton.1 hend
    trivial

/-- A match of a pattern from some place of a key covers the key, with the texts of its groups. -/
theorem Covers.of_leads_keyPattern {key : List Char}
    (h : (keyPattern pieces).Leads key.toArray p q) :
    ∃ values, Covers pieces values key ∧
      ∀ i v, values[i]? = some v → groupText? key.toArray q (1 + i) = some v := by
  obtain ⟨hstart, hall, hend⟩ := leads_keyPattern.1 h
  obtain ⟨values, cs, hcovers, hcs, hpos, -, htexts⟩ := Covers.of_leadsAll hall
  rw [hstart, List.drop_zero] at hcs
  have hlength : cs.length = key.length := by
    rw [hstart, Nat.zero_add] at hpos
    exact hpos.symm.trans hend
  obtain rfl : cs = key := hcs.eq_of_length hlength
  exact ⟨values, hcovers, htexts⟩

theorem exists_spans_keyPattern {key : List Char} :
    (∃ i ≤ key.length, ∃ j, (keyPattern pieces).Spans key.toArray i j) ↔
      ∃ values, Covers pieces values key := by
  constructor
  · rintro ⟨i, -, j, q, hq, -⟩
    obtain ⟨values, hcovers, -⟩ := Covers.of_leads_keyPattern hq
    exact ⟨values, hcovers⟩
  · rintro ⟨values, hcovers⟩
    obtain ⟨q, hq, hpos⟩ : ∃ q, LeadsAll key.toArray (piecePatterns 1 pieces) ⟨0, []⟩ q ∧
        q.pos = 0 + key.length := hcovers.exists_leadsAll (List.prefix_refl key)
    exact ⟨0, Nat.zero_le _, q.pos, q, leads_keyPattern.2 ⟨rfl, hq, hpos.trans (Nat.zero_add _)⟩, rfl⟩

/-- The pattern of plain pieces matches the keys they cover, unless it is too large. -/
theorem regexMatch_wholeText (hplain : PlainPieces pieces) (key : String) :
    regexMatch key (wholeText segmentGroup pieces) = true ↔
      (keyPattern pieces).fits = true ∧ ∃ values, Covers pieces values key.toList := by
  rw [regexMatch, ofText?_wholeText hplain]
  by_cases hfits : (keyPattern pieces).fits = true
  · rw [if_pos hfits]
    simp only [hfits, true_and]
    rw [Pattern.matchesIn_iff repeatsChars_keyPattern, exists_spans_keyPattern]
  · rw [if_neg hfits]
    simp [hfits]

/-- The groups of such a match are values with which the pieces cover the key. -/
theorem groupTexts?_wholeText (hplain : PlainPieces pieces) {key : String}
    {texts : List (Option (List Char))}
    (h : groupTexts? (paramNames pieces).length key (wholeText segmentGroup pieces) = some texts) :
    (keyPattern pieces).fits = true ∧
      ∃ values, Covers pieces values key.toList ∧ texts = values.map some := by
  rw [groupTexts?, ofText?_wholeText hplain] at h
  by_cases hfits : (keyPattern pieces).fits = true
  · rw [if_pos hfits] at h
    obtain ⟨⟨start, q⟩, hsearch, rfl⟩ : ∃ found, (keyPattern pieces).search key.toList.toArray = some found ∧
        (List.range (paramNames pieces).length).map
          (fun i => groupText? key.toList.toArray found.2 (i + 1)) = texts := by
      simpa [Option.bind_eq_some_iff] using h
    obtain ⟨values, hcovers, hvalues⟩ := Covers.of_leads_keyPattern (Pattern.leads_of_search hsearch)
    refine ⟨hfits, values, hcovers, List.ext_getElem? fun i => ?_⟩
    rw [← hcovers.length_values, List.getElem?_map, List.getElem?_map]
    cases hi : values[i]? with
    | none => simp [List.getElem?_eq_none_iff.1 hi]
    | some v =>
      have hlt := (List.getElem?_eq_some_iff.1 hi).1
      rw [List.getElem?_range hlt, Option.map_some, Nat.add_comm, hvalues i v hi]
      rfl
  · rw [if_neg hfits] at h
    exact absurd h (by simp)

/-- There is such a match iff the pieces cover the key. -/
theorem groupTexts?_isSome (hplain : PlainPieces pieces) (count : Nat) (key : String) :
    (groupTexts? count key (wholeText segmentGroup pieces)).isSome = true ↔
      (keyPattern pieces).fits = true ∧ ∃ values, Covers pieces values key.toList := by
  rw [groupTexts?, ofText?_wholeText hplain]
  by_cases hfits : (keyPattern pieces).fits = true
  · rw [if_pos hfits, ← exists_spans_keyPattern, ← List.size_toArray,
      ← Pattern.search_isSome_iff repeatsChars_keyPattern]
    cases hsearch : (keyPattern pieces).search key.toList.toArray <;> simp [hfits, hsearch]
  · rw [if_neg hfits]
    simp [hfits]

end AccessControl
