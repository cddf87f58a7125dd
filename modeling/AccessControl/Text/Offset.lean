/-!
# Byte offsets

Offsets in error messages and the wildcard patterns count bytes of the UTF-8 form of a text.
`splitAtByte?` cuts a text at such an offset, when the offset is not inside a character.
-/

namespace AccessControl.Text

/-- The number of bytes of the UTF-8 form. -/
def byteLength : List Char → Nat
  | [] => 0
  | c :: cs => c.utf8Size + byteLength cs

/-- The first `n` bytes and the rest; `none` past the end and inside a character. -/
def splitAtByte? : Nat → List Char → Option (List Char × List Char)
  | 0, cs => some ([], cs)
  | _ + 1, [] => none
  | n + 1, c :: cs =>
    if c.utf8Size ≤ n + 1 then
      (splitAtByte? (n + 1 - c.utf8Size) cs).map fun (before, after) => (c :: before, after)
    else none
  termination_by n => n
  decreasing_by
    have := c.utf8Size_pos
    omega

theorem byteLength_append (a b : List Char) : byteLength (a ++ b) = byteLength a + byteLength b := by
  induction a with
  | nil => simp [byteLength]
  | cons c a ih => simp [byteLength, ih, Nat.add_assoc]

/-- Cutting loses nothing, and the first part has the length asked for. -/
theorem splitAtByte?_eq_some {n : Nat} {cs before after : List Char}
    (h : splitAtByte? n cs = some (before, after)) : cs = before ++ after ∧ byteLength before = n := by
  fun_induction splitAtByte? n cs generalizing before with
  | case1 => simp_all [byteLength]
  | case2 => simp at h
  | case3 n c cs hle ih =>
    obtain ⟨⟨b, a⟩, hb, heq⟩ := Option.map_eq_some_iff.1 h
    simp only [Prod.mk.injEq] at heq
    obtain ⟨rfl, rfl⟩ := heq
    obtain ⟨rfl, hlen⟩ := ih hb
    exact ⟨rfl, by simp only [byteLength, hlen]; omega⟩
  | case4 => simp at h

/-- Every cut between two parts is found. -/
theorem splitAtByte?_append (a b : List Char) : splitAtByte? (byteLength a) (a ++ b) = some (a, b) := by
  induction a with
  | nil => simp [byteLength, splitAtByte?]
  | cons c a ih =>
    have hpos := c.utf8Size_pos
    obtain ⟨k, hk⟩ : ∃ k, byteLength (c :: a) = k + 1 :=
      ⟨byteLength (c :: a) - 1, by simp only [byteLength]; omega⟩
    rw [hk, List.cons_append, splitAtByte?]
    have hle : c.utf8Size ≤ k + 1 := by rw [← hk]; simp [byteLength]
    have hsub : k + 1 - c.utf8Size = byteLength a := by rw [← hk]; simp [byteLength]
    rw [if_pos hle, hsub, ih]
    rfl

end AccessControl.Text
