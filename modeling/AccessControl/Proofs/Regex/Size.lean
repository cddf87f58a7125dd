import AccessControl.Proofs.Regex.Reading
import AccessControl.Proofs.Regex.Rows
import AccessControl.Text.Offset
/-!
# How large a key pattern is

The automata of a literal have a state for every byte, besides a few that stand around it, so the size of
one decides whether it fits (`fits_wholeLiteral`).  What a set of characters takes depends on the states
that its byte rows share; for pieces with parameters there is a bound by the length of their text, under
which every pattern fits (`fits_keyPattern_of_length_le`).
-/

namespace AccessControl.Regex

/-! ## Bytes of literals -/

theorem length_utf8Bytes (c : Char) : (utf8Bytes c.toNat).length = c.utf8Size := by
  have hle (k : UInt32) : c.val ≤ k ↔ c.toNat < k.toNat + 1 := by
    rw [UInt32.le_iff_toNat_le, Nat.lt_succ_iff]
    rfl
  unfold utf8Bytes Char.utf8Size
  simp only [hle, UInt32.toNat_ofNatLT, Nat.reduceAdd]
  split
  · rfl
  · split
    · rfl
    · split <;> rfl

theorem length_literalBytes (cs : List Char) : (literalBytes cs).length = Text.byteLength cs := by
  induction cs with
  | nil => rfl
  | cons c cs ih =>
    rw [literalBytes, List.flatMap_cons, List.length_append, length_utf8Bytes, ← literalBytes, ih]
    rfl

/-! ## Counting states -/

/-- The states that fit, when none has more than one way on. -/
def stateLimit : Nat := 327680

namespace Tally

theorem check_states (n : Nat) : check ⟨n, 0⟩ = if n ≤ stateLimit then some ⟨n, 0⟩ else none := by
  have hlimit : limit = 32 * stateLimit := rfl
  have hfits : (⟨n, 0⟩ : Tally).bytes ≤ limit ↔ n ≤ stateLimit := by
    rw [bytes, hlimit]
    dsimp only
    omega
  simp only [check, hfits]

variable {n m : Nat} {next : Tally → Option Tally}

theorem check_bind_isSome : ((check ⟨n, 0⟩).bind next).isSome = true ↔
    n ≤ stateLimit ∧ (next ⟨n, 0⟩).isSome = true := by
  rw [check_states]
  split
  · next h => simp [h]
  · next h => simp [h]

theorem plain_bind_isSome : ((plain m ⟨n, 0⟩).bind next).isSome = true ↔
    n + m ≤ stateLimit ∧ (next ⟨n + m, 0⟩).isSome = true := check_bind_isSome

theorem ways_bind_isSome : ((ways 0 ⟨n, 0⟩).bind next).isSome = true ↔
    n ≤ stateLimit ∧ (next ⟨n, 0⟩).isSome = true := check_bind_isSome

theorem plain_isSome : (plain m ⟨n, 0⟩).isSome = true ↔ n + m ≤ stateLimit := by
  rw [plain, check_states]
  split <;> simp_all

end Tally

/-! ## Literals -/

/-- The pattern of a key that has to be a text. -/
def wholeLiteral : List Char → Pattern
  | [] => .seq (.look .textStart) (.look .textEnd)
  | c :: cs => .seq (.seq (.look .textStart) (.literal (c :: cs))) (.look .textEnd)

theorem joinLiterals_chars (c : Char) (cs : List Char) (l : Look) :
    Pattern.joinLiterals (((c :: cs).map fun c => .literal [c]) ++ [.look l]) =
      [.literal (c :: cs), .look l] := by
  induction cs generalizing c with
  | nil => rfl
  | cons d cs ih =>
    rw [List.map_cons, List.cons_append, Pattern.joinLiterals, ih]
    rfl

theorem piecePatterns_chars (n : Nat) (cs : List Char) :
    piecePatterns n (cs.map .char) = cs.map fun c => .literal [c] := by
  induction cs with
  | nil => rfl
  | cons c cs ih => rw [List.map_cons, piecePatterns, ih, List.map_cons]

theorem flatMap_parts_pieces (n : Nat) (pieces : List Piece) :
    (piecePatterns n pieces).flatMap Pattern.parts = piecePatterns n pieces := by
  induction pieces generalizing n with
  | nil => rfl
  | cons p rest ih =>
    cases p with
    | char c => exact congrArg (Pattern.literal [c] :: ·) (ih n)
    | param name => exact congrArg (segmentPattern n :: ·) (ih (n + 1))

/-- The pieces of a key pattern are parts already. -/
theorem keyPattern_eq_row (pieces : List Piece) : keyPattern pieces = Pattern.row
    (Pattern.joinLiterals (.look .textStart :: (piecePatterns 1 pieces ++ [.look .textEnd]))) := by
  rw [keyPattern, Pattern.concat, List.flatMap_cons, List.flatMap_append, flatMap_parts_pieces]
  rfl

theorem keyPattern_chars (cs : List Char) : keyPattern (cs.map .char) = wholeLiteral cs := by
  rw [keyPattern_eq_row, piecePatterns_chars, Pattern.joinLiterals]
  · cases cs with
    | nil => rfl
    | cons c cs =>
      rw [joinLiterals_chars]
      rfl
  · simp
  · simp

theorem forward?_wholeLiteral (cs : List Char) :
    (wholeLiteral cs).forward?.isSome = true ↔ Text.byteLength cs + 6 ≤ stateLimit := by
  rw [← length_literalBytes]
  cases cs with
  | nil => decide
  | cons c cs =>
    have hstart : (wholeLiteral (c :: cs)).fromStart = true := rfl
    rw [Pattern.forward?, hstart]
    simp [wholeLiteral, Pattern.add, Standing.join, Pattern.endsOpen, Option.bind_assoc,
      Tally.plain_bind_isSome, Tally.ways_bind_isSome, Tally.plain_isSome]
    omega

theorem backward?_wholeLiteral (cs : List Char) :
    (wholeLiteral cs).backward?.isSome = true ↔ Text.byteLength cs + 4 ≤ stateLimit := by
  rw [← length_literalBytes]
  cases cs with
  | nil => decide
  | cons c cs =>
    have hend : (wholeLiteral (c :: cs)).toEnd = true := rfl
    rw [Pattern.backward?, hend]
    simp [wholeLiteral, Pattern.add, Standing.join, Pattern.endsOpen, Option.bind_assoc,
      Tally.plain_bind_isSome, Tally.ways_bind_isSome, Tally.plain_isSome]
    omega

/-! ## Literals -/

/-- The pattern of a key that has to be a text is not too large iff the text is short enough. -/
theorem fits_wholeLiteral (cs : List Char) :
    (wholeLiteral cs).fits = true ↔ Text.byteLength cs ≤ 327674 := by
  have hbound : 80 * Text.byteLength cs ≤ (wholeLiteral cs).bound := by
    rw [← length_literalBytes]
    cases cs with
    | nil => decide
    | cons c cs =>
      simp only [wholeLiteral, Pattern.bound]
      omega
  have hlimit : Tally.limit = 32 * stateLimit := rfl
  have hstates : stateLimit = 327680 := rfl
  rw [Pattern.fits, Bool.or_eq_true, Bool.and_eq_true, decide_eq_true_iff, forward?_wholeLiteral,
    backward?_wholeLiteral]
  omega

/-! ## Pieces with parameters -/

/-- A bound for patterns in a row. -/
def totalBound : List Pattern → Nat
  | [] => 0
  | P :: ps => P.bound + 4 + totalBound ps

variable {P : Pattern} {ps : List Pattern}

theorem totalBound_append {qs : List Pattern} :
    totalBound (ps ++ qs) = totalBound ps + totalBound qs := by
  induction ps with
  | nil => exact (Nat.zero_add _).symm
  | cons P ps ih =>
    rw [List.cons_append, totalBound, totalBound, ih]
    omega

theorem bound_foldl_seq : (ps.foldl .seq P).bound = P.bound + totalBound ps := by
  induction ps generalizing P with
  | nil => rfl
  | cons Q ps ih =>
    rw [List.foldl_cons, ih, totalBound, Pattern.bound]
    omega

theorem bound_row_le : (Pattern.row ps).bound ≤ totalBound ps + 32 := by
  cases ps with
  | nil => exact Nat.le_refl _
  | cons P ps =>
    rw [Pattern.row, bound_foldl_seq, totalBound]
    omega

theorem totalBound_joinLiterals_le (ps : List Pattern) :
    totalBound (Pattern.joinLiterals ps) ≤ totalBound ps := by
  fun_induction Pattern.joinLiterals ps with
  | case1 => exact Nat.le_refl _
  | case2 rest ih =>
    rw [totalBound]
    omega
  | case3 cs rest ds joined heq ih =>
    rw [heq] at ih
    simp only [totalBound, Pattern.bound, literalBytes, List.flatMap_append,
      List.length_append] at ih ⊢
    omega
  | case4 cs rest hne ih =>
    rw [totalBound, totalBound]
    omega
  | case5 P rest hne hliteral ih =>
    rw [totalBound, totalBound]
    omega

theorem bound_literal_singleton_le (c : Char) : (Pattern.literal [c]).bound + 4 ≤ 1331 := by
  have hbytes : (literalBytes [c]).length ≤ 4 := by
    rw [length_literalBytes]
    exact Char.utf8Size_le_four c
  rw [Pattern.bound]
  omega

theorem bound_segmentPattern (n : Nat) : (segmentPattern n).bound + 4 ≤ 3 * 1331 := by
  -- the rows of bytes of all characters but the slash
  have hrows : (byteRows noSlash).length = 10 := by decide +kernel
  rw [segmentPattern, Pattern.bound, Pattern.bound, Pattern.bound, hrows]
  decide

/-- The braces around a name and what stands between them. -/
theorem length_of_braceName? {cs name after : List Char} (h : braceName? cs = some (name, after)) :
    after.length + 2 ≤ cs.length := by
  unfold braceName? at h
  split at h
  · exact absurd h (by simp)
  · next c rest =>
    split at h
    · exact absurd h (by simp)
    · split at h
      · next hdrop =>
        obtain ⟨-, rfl⟩ := Prod.mk.inj (Option.some.inj h)
        have hlength := (List.dropWhile_suffix (l := rest)
          fun x => x != '\x7d' && x != '/').length_le
        rw [hdrop] at hlength
        simp only [List.length_cons] at hlength ⊢
        omega
      · exact absurd h (by simp)

theorem totalBound_bracePieces_le (n : Nat) (cs : List Char) :
    totalBound (piecePatterns n (bracePieces cs)) ≤ 1331 * cs.length := by
  -- a parameter takes three characters at least: its name and two braces
  fun_induction bracePieces cs generalizing n with
  | case1 => exact Nat.zero_le _
  | case2 c rest name after hname ih =>
    have hlength : after.length + 2 ≤ rest.length := by
      split at hname
      · exact length_of_braceName? hname
      · exact absurd hname (by simp)
    have hsegment := bound_segmentPattern n
    have hrest := ih (n + 1)
    rw [piecePatterns, totalBound, List.length_cons]
    omega
  | case3 c rest hname ih =>
    have hliteral := bound_literal_singleton_le c
    have hrest := ih n
    rw [piecePatterns, totalBound, List.length_cons]
    omega

/-- The pattern of a text with parameters between braces fits if the text is not too long. -/
theorem fits_keyPattern_of_length_le {cs : List Char} (h : cs.length ≤ 7500) :
    (keyPattern (bracePieces cs)).fits = true := by
  have hpieces := totalBound_bracePieces_le 1 cs
  refine Pattern.fits_of_bound_le ?_
  rw [keyPattern_eq_row]
  generalize piecePatterns 1 (bracePieces cs) = ps at hpieces
  have hall : totalBound (.look .textStart :: (ps ++ [.look .textEnd])) = totalBound ps + 72 := by
    rw [totalBound, totalBound_append]
    change 32 + 4 + (totalBound ps + (32 + 4)) = _
    omega
  have hjoin := totalBound_joinLiterals_le (.look .textStart :: (ps ++ [.look .textEnd]))
  have hlimit : Tally.limit = 10485760 := rfl
  rw [hlimit]
  refine Nat.le_trans (Nat.add_le_add_right bound_row_le 400) ?_
  omega

end AccessControl.Regex
