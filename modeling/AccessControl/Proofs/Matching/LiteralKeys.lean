import AccessControl.Proofs.Matching.Covered
import AccessControl.Proofs.Regex.Size
/-!
# Patterns without parameters

Without a star and a parameter a pattern is a regular expression for a whole key, as it stands:

    keyMatch  key pattern = (key = pattern)
    keyMatch2 key pattern = regexMatch key ("^" ++ pattern ++ "$")
    keyMatch3 key pattern = regexMatch key ("^" ++ pattern ++ "$")
    keyMatch5 key pattern = regexMatch (withoutQuery key) ("^" ++ pattern ++ "$")

The expression matches the pattern alone as long as all its characters stand for themselves and it is not
too large (`regexMatch_literal`).  Nothing quotes a character that does not, so that a dot in the name of a
resource covers any character.
-/

namespace AccessControl

open Regex

variable {cs : List Char}

/-! ## Pieces -/

theorem widenStars_of_not_mem (h : '*' ∉ cs) : widenStars cs = cs := by
  fun_induction widenStars cs with
  | case1 rest ih => exact absurd (by simp) h
  | case2 c rest hne ih => rw [ih (List.not_mem_of_not_mem_cons h)]
  | case3 => rfl

theorem colonPieces_of_not_mem (h : ':' ∉ cs) : colonPieces cs = cs.map .char := by
  induction cs with
  | nil => rw [colonPieces, List.map_nil]
  | cons c cs ih =>
    have hc : c ≠ ':' := (List.ne_of_not_mem_cons h).symm
    rw [colonPieces, if_neg (by simp [hc]), ih (List.not_mem_of_not_mem_cons h),
      List.map_cons]

theorem bracePieces_cons {c : Char} (hc : c ≠ '\x7b') :
    bracePieces (c :: cs) = .char c :: bracePieces cs := by
  rw [bracePieces]
  split
  · next heq =>
    rw [if_neg hc] at heq
    exact absurd heq (by simp)
  · rfl

theorem bracePieces_append (h : '\x7b' ∉ cs) (rest : List Char) :
    bracePieces (cs ++ rest) = cs.map .char ++ bracePieces rest := by
  induction cs with
  | nil => rfl
  | cons c cs ih =>
    have hc : c ≠ '\x7b' := (List.ne_of_not_mem_cons h).symm
    rw [List.cons_append, bracePieces_cons hc, ih (List.not_mem_of_not_mem_cons h)]
    rfl

theorem bracePieces_of_not_mem (h : '\x7b' ∉ cs) : bracePieces cs = cs.map .char := by
  have happend := bracePieces_append h []
  rwa [List.append_nil, bracePieces, List.append_nil] at happend

theorem pieceText_chars (param cs : List Char) : pieceText param (cs.map .char) = cs := by
  induction cs with
  | nil => rfl
  | cons c cs ih => rw [List.map_cons, pieceText, ih]

theorem wholeText_chars (param : String) (cs : List Char) :
    wholeText param (cs.map .char) = "^" ++ String.ofList cs ++ "$" := by
  rw [← String.toList_inj, toList_wholeText, pieceText_chars]
  simp

theorem covers_chars_iff {values : List (List Char)} {key : List Char} :
    Covers (cs.map .char) values key ↔ values = [] ∧ key = cs := by
  induction cs generalizing key with
  | nil =>
    constructor
    · rintro ⟨⟩
      exact ⟨rfl, rfl⟩
    · rintro ⟨rfl, rfl⟩
      exact .nil
  | cons c cs ih =>
    constructor
    · rintro (_ | @⟨_, _, after, _, h⟩)
      obtain ⟨rfl, rfl⟩ := ih.1 h
      exact ⟨rfl, rfl⟩
    · rintro ⟨rfl, rfl⟩
      exact .char c (ih.2 ⟨rfl, rfl⟩)

theorem plainPieces_chars (h : ∀ c ∈ cs, isPlain c = true) : PlainPieces (cs.map .char) := by
  intro c hc
  obtain ⟨d, hd, heq⟩ := List.mem_map.1 hc
  rw [← Piece.char.inj heq]
  exact h d hd

/-- A literal matches itself alone, unless it is too large. -/
theorem regexMatch_literal {pattern : String} (hplain : ∀ c ∈ pattern.toList, isPlain c = true)
    (key : String) : regexMatch key ("^" ++ pattern ++ "$") = true ↔
      Text.byteLength pattern.toList ≤ 327674 ∧ key = pattern := by
  have htext : "^" ++ pattern ++ "$" = wholeText segmentGroup (pattern.toList.map .char) := by
    rw [wholeText_chars, String.ofList_toList]
  rw [htext, regexMatch_wholeText (plainPieces_chars hplain), keyPattern_chars, fits_wholeLiteral]
  simp only [covers_chars_iff, exists_eq_left, String.toList_inj]

/-! ## Keys -/

theorem keyMatch_of_not_mem {pattern : String} (hstar : '*' ∉ pattern.toList) (key : String) :
    keyMatch key pattern = (key == pattern) := by
  rw [keyMatch, beforeStar?, if_neg hstar]

theorem keyMatch2_of_not_mem {pattern : String} (hstar : '*' ∉ pattern.toList)
    (hcolon : ':' ∉ pattern.toList) (key : String) :
    keyMatch2 key pattern = regexMatch key ("^" ++ pattern ++ "$") := by
  have hne : (pattern == "*") = false := by
    rw [beq_eq_false_iff_ne]
    rintro rfl
    exact hstar (by decide)
  rw [keyMatch2, hne, Bool.false_or, widenStars_of_not_mem hstar, colonPieces_of_not_mem hcolon,
    wholeText_chars, String.ofList_toList]

theorem keyMatch3_of_not_mem {pattern : String} (hstar : '*' ∉ pattern.toList)
    (hbrace : '\x7b' ∉ pattern.toList) (key : String) :
    keyMatch3 key pattern = regexMatch key ("^" ++ pattern ++ "$") := by
  rw [keyMatch3, widenStars_of_not_mem hstar, bracePieces_of_not_mem hbrace, wholeText_chars,
    String.ofList_toList]

/-- **Patterns without stars and parameters.**  They are regular expressions for the whole key, except for
`keyMatch`; those whose characters all stand for themselves match the keys equal to them, unless they are
too large, and no others. -/
theorem keyMatch_without_parameters (key pattern : String) (hstar : '*' ∉ pattern.toList) :
    (keyMatch key pattern = true ↔ key = pattern) ∧
    (':' ∉ pattern.toList →
      keyMatch2 key pattern = regexMatch key ("^" ++ pattern ++ "$") ∧
      ((∀ c ∈ pattern.toList, isPlain c = true) →
        (keyMatch2 key pattern = true ↔
          Text.byteLength pattern.toList ≤ 327674 ∧ key = pattern))) ∧
    ('\x7b' ∉ pattern.toList →
      keyMatch3 key pattern = regexMatch key ("^" ++ pattern ++ "$") ∧
      keyMatch5 key pattern = regexMatch (withoutQuery key) ("^" ++ pattern ++ "$") ∧
      ((∀ c ∈ pattern.toList, isPlain c = true) →
        (keyMatch3 key pattern = true ↔
          Text.byteLength pattern.toList ≤ 327674 ∧ key = pattern) ∧
        (keyMatch5 key pattern = true ↔
          Text.byteLength pattern.toList ≤ 327674 ∧ withoutQuery key = pattern))) := by
  refine ⟨?_, fun hcolon => ?_, fun hbrace => ?_⟩
  · rw [keyMatch_of_not_mem hstar, beq_iff_eq]
  · have h2 := keyMatch2_of_not_mem hstar hcolon key
    refine ⟨h2, fun hplain => ?_⟩
    rw [h2]
    exact regexMatch_literal hplain key
  · have h3 := keyMatch3_of_not_mem hstar hbrace
    refine ⟨h3 key, h3 _, fun hplain => ⟨?_, ?_⟩⟩
    · rw [h3]
      exact regexMatch_literal hplain key
    · rw [keyMatch5, h3]
      exact regexMatch_literal hplain _

/-- A path whose characters stand for themselves. -/
theorem keyMatch_without_parameters_path :
    keyMatch "/data/1" "/data/1" = true ∧ keyMatch2 "/data/1" "/data/1" = true ∧
      keyMatch3 "/data/2" "/data/1" = false ∧ keyMatch5 "/data/1?x" "/data/1" = true := by
  have hstar : '*' ∉ "/data/1".toList := by decide
  have hcolon : ':' ∉ "/data/1".toList := by decide
  have hbrace : '\x7b' ∉ "/data/1".toList := by decide
  have hplain : ∀ c ∈ "/data/1".toList, isPlain c = true :=
    List.all_eq_true.1 (by decide : "/data/1".toList.all isPlain = true)
  have hsize : Text.byteLength "/data/1".toList ≤ 327674 := by decide
  obtain ⟨h, h2, -⟩ := keyMatch_without_parameters "/data/1" "/data/1" hstar
  obtain ⟨-, -, h3⟩ := keyMatch_without_parameters "/data/2" "/data/1" hstar
  obtain ⟨-, -, h5⟩ := keyMatch_without_parameters "/data/1?x" "/data/1" hstar
  refine ⟨h.2 rfl, ((h2 hcolon).2 hplain).2 ⟨hsize, rfl⟩, ?_, ?_⟩
  · rw [← Bool.not_eq_true, (((h3 hbrace).2.2 hplain).1)]
    exact fun ⟨_, heq⟩ => absurd heq (by decide)
  · exact (((h5 hbrace).2.2 hplain).2).2 ⟨hsize, by decide⟩

/-- A dot covers any character. -/
theorem not_always_literal : ¬ ∀ key pattern : String, '*' ∉ pattern.toList → ':' ∉ pattern.toList →
    (keyMatch2 key pattern = true ↔ key = pattern) := by
  intro h
  have hstar : '*' ∉ "a.c".toList := by decide
  have hcolon : ':' ∉ "a.c".toList := by decide
  have hmatch : keyMatch2 "abc" "a.c" = true := by
    rw [keyMatch2_of_not_mem hstar hcolon]
    decide +kernel
  exact absurd ((h "abc" "a.c" hstar hcolon).1 hmatch) (by decide)

end AccessControl
