import AccessControl.Proofs.Matching.Covered
/-!
# Values of parameters

Where behind every parameter of a pattern comes a slash or the end, a key is covered with one list of
values only (`Covers.values_unique`).  Equal names have equal values iff an assignment of values to names
gives the list (`bindConsistently_iff`).  So such a pattern matches a key iff an assignment makes the key
of it (`keyMatch4_iff_filledPieces`).
-/

namespace AccessControl

open Regex

variable {pieces : List Piece} {cs rest : List Char}

/-! ## Values -/

/-- Behind every parameter comes a slash or the end. -/
def Separated : List Piece → Prop
  | [] => True
  | .char _ :: rest => Separated rest
  | .param _ :: rest => (∀ p ∈ rest.head?, p = .char '/') ∧ Separated rest

theorem Covers.head?_eq_slash {values : List (List Char)}
    (h : Covers pieces values cs) (hhead : ∀ p ∈ pieces.head?, p = .char '/') :
    ∀ c ∈ cs.head?, c = '/' := by
  cases h with
  | nil => simp
  | char c h =>
    obtain rfl := Piece.char.inj (hhead _ rfl)
    simp
  | param name hvalue h => exact absurd (hhead _ rfl) (by simp)

/-- A value runs up to the next slash. -/
theorem IsSegment.takeWhile_append {value : List Char} (h : IsSegment value)
    (hhead : ∀ c ∈ rest.head?, c = '/') : (value ++ rest).takeWhile (· != '/') = value := by
  have hvalue : ∀ c ∈ value, (c != '/') = true := fun c hc =>
    bne_iff_ne.2 fun heq => h.2 (heq ▸ hc)
  have hrest : rest.takeWhile (· != '/') = [] := by
    cases rest with
    | nil => rfl
    | cons c rest =>
      rw [hhead c rfl]
      rfl
  rw [List.takeWhile_append_of_pos hvalue, hrest, List.append_nil]

/-- A key is covered with one list of values only. -/
theorem Covers.values_unique {values values' : List (List Char)}
    (h : Covers pieces values cs) (h' : Covers pieces values' cs) (hsep : Separated pieces) :
    values = values' := by
  -- a value and what follows it are told apart by the first slash
  induction h generalizing values' with
  | nil =>
    cases h'
    rfl
  | char c h ih =>
    cases h' with
    | char _ h' => exact ih h' hsep
  | @param rest values cs name value hvalue h ih =>
    generalize hkey : value ++ cs = key at h'
    cases h' with
    | @param _ values' cs' _ value' hvalue' h' =>
      obtain rfl : value = value' := by
        rw [← hvalue.takeWhile_append (h.head?_eq_slash hsep.1), hkey,
          hvalue'.takeWhile_append (h'.head?_eq_slash hsep.1)]
      obtain rfl : cs = cs' := List.append_cancel_left hkey
      rw [ih h' hsep.2]

/-! ## Assignments -/

variable {σ : List Char → List Char}

/-- Pieces with the values of their parameters. -/
def filledPieces (σ : List Char → List Char) (pieces : List Piece) : List Char :=
  pieces.flatMap fun p => match p with
    | .char c => [c]
    | .param name => σ name

theorem covers_map_iff : Covers pieces ((paramNames pieces).map σ) cs ↔
    (∀ name ∈ paramNames pieces, IsSegment (σ name)) ∧ filledPieces σ pieces = cs := by
  induction pieces generalizing cs with
  | nil =>
    constructor
    · rintro ⟨⟩
      exact ⟨List.forall_mem_nil _, rfl⟩
    · rintro ⟨-, rfl⟩
      exact .nil
  | cons piece rest ih =>
    cases piece with
    | char c =>
      constructor
      · rintro (_ | ⟨_, h⟩)
        obtain ⟨hnames, rfl⟩ := ih.1 h
        exact ⟨hnames, rfl⟩
      · rintro ⟨hnames, rfl⟩
        exact .char c (ih.2 ⟨hnames, rfl⟩)
    | param name =>
      constructor
      · intro h
        generalize hvalues : (paramNames (.param name :: rest)).map σ = values at h
        cases h with
        | @param _ values cs _ value hvalue h =>
          obtain ⟨rfl, rfl⟩ := List.cons.inj hvalues
          obtain ⟨hnames, rfl⟩ := ih.1 h
          exact ⟨List.forall_mem_cons.2 ⟨hvalue, hnames⟩, rfl⟩
      · rintro ⟨hnames, rfl⟩
        obtain ⟨hvalue, hnames⟩ := List.forall_mem_cons.1 hnames
        exact .param name hvalue (ih.2 ⟨hnames, rfl⟩)

theorem paramNames_append (ps qs : List Piece) : paramNames (ps ++ qs) = paramNames ps ++ paramNames qs :=
  List.filterMap_append

theorem filledPieces_append (ps qs : List Piece) :
    filledPieces σ (ps ++ qs) = filledPieces σ ps ++ filledPieces σ qs :=
  List.flatMap_append

/-- The values that an assignment may have where names are bound. -/
def Agrees (σ : List Char → List Char) (bound : List (List Char × List Char)) : Prop :=
  ∀ name b, bound.find? (fun b => b.1 == name) = some b → σ name = b.2

theorem agrees_cons {bound : List (List Char × List Char)} {name value : List Char}
    (hnew : bound.find? (fun b => b.1 == name) = none) :
    Agrees σ ((name, value) :: bound) ↔ σ name = value ∧ Agrees σ bound := by
  constructor
  · intro h
    refine ⟨h name (name, value) (by simp), fun other b hb => h other b ?_⟩
    have hne : name ≠ other := by
      rintro rfl
      rw [hnew] at hb
      exact absurd hb (by simp)
    rw [List.find?_cons_of_neg (by simpa using hne), hb]
  · rintro ⟨hvalue, h⟩ other b hb
    by_cases heq : name = other
    · subst heq
      rw [List.find?_cons_of_pos (by simp)] at hb
      rw [hvalue, ← Option.some.inj hb]
    · rw [List.find?_cons_of_neg (by simpa using heq)] at hb
      exact h other b hb

/-- Equal names have equal values iff an assignment gives all values. -/
theorem bindConsistently_iff {bound : List (List Char × List Char)} {names values : List (List Char)}
    (hlength : values.length = names.length) :
    bindConsistently bound names (values.map some) = true ↔
      ∃ σ, Agrees σ bound ∧ names.map σ = values := by
  induction names generalizing bound values with
  | nil =>
    obtain rfl := List.eq_nil_of_length_eq_zero hlength
    -- no name is left, so what is bound already is an assignment
    refine ⟨fun _ => ⟨fun name => ((bound.find? fun b => b.1 == name).map (·.2)).getD [], ?_, rfl⟩,
      fun _ => by rw [bindConsistently]⟩
    intro name b hb
    dsimp only
    rw [hb]
    rfl
  | cons name names ih =>
    cases values with
    | nil => exact absurd hlength (by simp)
    | cons value values =>
      have hrest : values.length = names.length := Nat.succ.inj hlength
      rw [List.map_cons, bindConsistently]
      split
      · next own earlier hfound =>
        rw [Bool.and_eq_true, beq_iff_eq, ih hrest]
        constructor
        · rintro ⟨rfl, σ, hσ, rfl⟩
          exact ⟨σ, hσ, by rw [List.map_cons, hσ name _ hfound]⟩
        · rintro ⟨σ, hσ, heq⟩
          obtain ⟨hname, hnames⟩ := List.cons.inj heq
          exact ⟨by rw [← hname, hσ name _ hfound], σ, hσ, hnames⟩
      · next hnew =>
        rw [ih hrest]
        constructor
        · rintro ⟨σ, hσ, rfl⟩
          obtain ⟨hname, hσ⟩ := (agrees_cons hnew).1 hσ
          exact ⟨σ, hσ, by rw [List.map_cons, hname]⟩
        · rintro ⟨σ, hσ, heq⟩
          obtain ⟨hname, hnames⟩ := List.cons.inj heq
          exact ⟨σ, (agrees_cons hnew).2 ⟨hname, hσ⟩, hnames⟩

/-! ## Keys -/

/-- A pattern with plain pieces matches the keys that assignments make of it, unless it is too large. -/
theorem keyMatch4_iff_filledPieces (hplain : PlainPieces pieces) (hsep : Separated pieces)
    {pattern : String} (hpattern : bracePieces (widenStars pattern.toList) = pieces) (key : String) :
    keyMatch4 key pattern = true ↔ (keyPattern pieces).fits = true ∧
      ∃ σ : List Char → List Char, (∀ name ∈ paramNames pieces, IsSegment (σ name)) ∧
        filledPieces σ pieces = key.toList := by
  have hsome := groupTexts?_isSome hplain (paramNames pieces).length key
  simp only [keyMatch4, hpattern, ← covers_map_iff]
  split
  · next texts htexts =>
    obtain ⟨hfits, values, hcovers, rfl⟩ := groupTexts?_wholeText hplain htexts
    rw [bindConsistently_iff hcovers.length_values]
    constructor
    · rintro ⟨σ, -, rfl⟩
      exact ⟨hfits, σ, hcovers⟩
    · rintro ⟨-, σ, hσ⟩
      exact ⟨σ, fun name b hb => absurd hb (by simp), hσ.values_unique hcovers hsep⟩
  · next hnone =>
    rw [hnone] at hsome
    refine ⟨fun h => absurd h (by simp), ?_⟩
    rintro ⟨hfits, σ, hσ⟩
    exact absurd (hsome.2 ⟨hfits, _, hσ⟩) (by simp)

end AccessControl
