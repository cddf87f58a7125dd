import AccessControl.Matching.KeyOffsets
import AccessControl.Proofs.Matching.LiteralKeys
import AccessControl.Proofs.Text.Boundaries
/-!
# A wildcard at the end

A pattern with a star matches the keys that start with what stands before its first one, and the star covers the
rest of the key:

    keyMatch key (head ++ "*" ++ rest) = head is a prefix of key      (`keyMatch_star`)
    keyGet (head ++ after) (head ++ "*" ++ rest) = after              (`keyGet_append`)

The offset of the star is a boundary of the pattern.  In a key it need not be one, but it is in every key that
matches, and other keys are not cut (`keyMatchAt_eq`, `keyGetAt_eq`).
-/

namespace AccessControl

open Text

variable {key pattern : String} {head rest after : List Char}

/-! ## The head of a pattern -/

/-- A pattern of which `head` stands before the first star. -/
def HasHead (pattern : String) (head : List Char) : Prop :=
  '*' ∉ head ∧ ∃ rest, pattern.toList = head ++ '*' :: rest

theorem beforeStar?_append (hhead : '*' ∉ head) : beforeStar? (head ++ '*' :: rest) = some head := by
  have hall : ∀ c ∈ head, (c != '*') = true := by
    intro c hc
    rw [bne_iff_ne]
    rintro rfl
    exact hhead hc
  rw [beforeStar?, if_pos (by simp), List.takeWhile_append_of_pos hall, List.takeWhile_cons_of_neg (by simp),
    List.append_nil]

theorem HasHead.beforeStar?_eq (h : HasHead pattern head) : beforeStar? pattern.toList = some head := by
  obtain ⟨hhead, rest, hpattern⟩ := h
  rw [hpattern, beforeStar?_append hhead]

theorem HasHead.unique {other : List Char} (h : HasHead pattern head) (hother : HasHead pattern other) :
    other = head := Option.some.inj (hother.beforeStar?_eq.symm.trans h.beforeStar?_eq)

theorem HasHead.mem (h : HasHead pattern head) : '*' ∈ pattern.toList := by
  obtain ⟨-, rest, hpattern⟩ := h
  rw [hpattern]
  simp

theorem HasHead.starOffset?_eq (h : HasHead pattern head) : starOffset? pattern = some (byteLength head) := by
  obtain ⟨hhead, rest, hpattern⟩ := h
  refine offsetOf?_eq hpattern (fun d hd => ?_) (by decide)
  rw [beq_eq_false_iff_ne]
  rintro rfl
  exact hhead hd

theorem HasHead.upTo?_eq (h : HasHead pattern head) :
    upTo? pattern (byteLength head) = some (String.ofList head) := by
  obtain ⟨-, rest, hpattern⟩ := h
  exact Text.upTo?_eq hpattern

/-- A pattern has no star, or a head. -/
theorem not_mem_or_hasHead (pattern : String) : '*' ∉ pattern.toList ∨ ∃ head, HasHead pattern head := by
  by_cases hstar : '*' ∈ pattern.toList
  · obtain ⟨head, rest, hpattern, hhead⟩ := List.eq_append_cons_of_mem hstar
    exact Or.inr ⟨head, hhead, rest, hpattern⟩
  · exact Or.inl hstar

/-! ## Keys -/

/-- A pattern with a star matches the keys that start with its head. -/
theorem keyMatch_star (h : HasHead pattern head) (key : String) :
    keyMatch key pattern = true ↔ head <+: key.toList := by
  rw [keyMatch, h.beforeStar?_eq]
  dsimp only
  rw [beq_iff_eq, Option.map_eq_some_iff]
  constructor
  · rintro ⟨⟨start, after⟩, hsplit, rfl⟩
    exact ⟨after, (splitAtByte?_eq_some hsplit).1.symm⟩
  · rintro ⟨after, hkey⟩
    exact ⟨(head, after), by rw [← hkey, splitAtByte?_append], rfl⟩

/-- A pattern without a star matches itself, one with a star the keys that start with its head. -/
theorem keyMatch_iff (key pattern : String) : keyMatch key pattern = true ↔
    ('*' ∉ pattern.toList ∧ key = pattern) ∨ ∃ head, HasHead pattern head ∧ head <+: key.toList := by
  rcases not_mem_or_hasHead pattern with hstar | ⟨head, h⟩
  · have hnone : ¬ ∃ head, HasHead pattern head ∧ head <+: key.toList := fun ⟨_, h, _⟩ => hstar h.mem
    rw [keyMatch_of_not_mem hstar, beq_iff_eq, or_iff_left hnone, and_iff_right hstar]
  · rw [keyMatch_star h, or_iff_right fun hboth => hboth.1 h.mem]
    exact ⟨fun hprefix => ⟨head, h, hprefix⟩, fun ⟨_, hother, hprefix⟩ => h.unique hother ▸ hprefix⟩

/-- The star covers what is behind the head. -/
theorem keyGet_append (h : HasHead pattern head) (hkey : key.toList = head ++ after) :
    keyGet key pattern = String.ofList after := by
  rw [keyGet, h.beforeStar?_eq]
  dsimp only
  rw [hkey, splitAtByte?_append]
  dsimp only
  rw [if_pos rfl]

theorem keyGet_of_not_match (h : keyMatch key pattern = false) : keyGet key pattern = "" := by
  unfold keyMatch at h
  unfold keyGet
  split
  · rfl
  · next head hhead =>
    rw [hhead] at h
    dsimp only at h
    split
    · next start after hsplit =>
      rw [hsplit] at h
      rw [if_neg (by simpa using h)]
    · rfl

theorem keyGet_of_not_mem (hstar : '*' ∉ pattern.toList) (key : String) : keyGet key pattern = "" := by
  rw [keyGet, beforeStar?, if_neg hstar]

/-! ## Offsets -/

theorem starOffset?_of_not_mem (hstar : '*' ∉ pattern.toList) : starOffset? pattern = none := by
  refine offsetOf?_eq_none fun c hc => ?_
  rw [beq_eq_false_iff_ne]
  rintro rfl
  exact hstar hc

/-- A prefix of a text that is not shorter is all of it. -/
theorem eq_of_prefix_of_size_le (h : head <+: key.toList) (hsize : key.utf8ByteSize ≤ byteLength head) :
    key.toList = head := by
  obtain ⟨after, hkey⟩ := h
  cases after with
  | nil => rw [← hkey, List.append_nil]
  | cons c after =>
    have hpos := c.utf8Size_pos
    rw [utf8ByteSize_eq, ← hkey, byteLength_append, byteLength] at hsize
    omega

/-- The head of a key up to an offset is that of the pattern when the key starts with it. -/
theorem upTo?_eq_head_iff : upTo? key (byteLength head) = some (String.ofList head) ↔ head <+: key.toList := by
  rw [upTo?_eq_some_iff, String.toList_ofList]
  exact and_iff_left rfl

/-- Comparing at the offset of the star is matching. -/
theorem keyMatchAt_eq (key pattern : String) : keyMatchAt key pattern = keyMatch key pattern := by
  rcases not_mem_or_hasHead pattern with hstar | ⟨head, h⟩
  · rw [keyMatchAt, starOffset?_of_not_mem hstar, keyMatch_of_not_mem hstar]
  · rw [Bool.eq_iff_iff, keyMatch_star h, keyMatchAt, h.starOffset?_eq]
    dsimp only
    rw [h.upTo?_eq]
    split
    · rw [beq_iff_eq, upTo?_eq_head_iff]
    · next hsize =>
      rw [beq_iff_eq, Option.some_inj]
      constructor
      · intro hkey
        exact ⟨[], by rw [hkey, String.toList_ofList, List.append_nil]⟩
      · intro hprefix
        rw [← eq_of_prefix_of_size_le hprefix (Nat.le_of_not_lt hsize), String.ofList_toList]

/-- The key is cut at the offset of the star only where it has a boundary. -/
theorem keyGetAt_eq (key pattern : String) : keyGetAt key pattern = .ok (keyGet key pattern) := by
  rcases not_mem_or_hasHead pattern with hstar | ⟨head, h⟩
  · rw [keyGetAt, starOffset?_of_not_mem hstar, keyGet_of_not_mem hstar]
  · rw [keyGetAt, h.starOffset?_eq]
    dsimp only
    rw [h.upTo?_eq]
    by_cases hprefix : head <+: key.toList
    · obtain ⟨after, hkey⟩ := hprefix
      rw [upTo?_eq_head_iff.2 ⟨after, hkey⟩, keyGet_append h hkey.symm]
      dsimp only
      split
      · exact sliceFrom_eq hkey.symm
      · next hsize =>
        have hwhole := eq_of_prefix_of_size_le ⟨after, hkey⟩ (Nat.le_of_not_lt fun hlt => hsize ⟨hlt, rfl⟩)
        rw [← hkey, List.append_right_eq_self] at hwhole
        rw [hwhole, String.ofList_nil]
    · have hother : upTo? key (byteLength head) ≠ some (String.ofList head) := fun heq =>
        hprefix (upTo?_eq_head_iff.1 heq)
      rw [keyGet_of_not_match (by rwa [← Bool.not_eq_true, keyMatch_star h])]
      split
      · next start front hstart hfront =>
        obtain rfl := Option.some.inj hfront
        rw [if_neg fun hboth => hother (by rw [hstart, hboth.2])]
      · rfl

/-- The offset of a star is a boundary of its pattern, and of every key that matches. -/
theorem isBoundary_starOffset? {i : Nat} (hi : starOffset? pattern = some i) (key : String) :
    IsBoundary pattern i ∧ (keyMatch key pattern = true → IsBoundary key i) := by
  obtain ⟨before, c, after, hpattern, hbefore, hc, rfl⟩ := offsetOf?_eq_some hi
  rw [beq_iff_eq] at hc
  have hhead : HasHead pattern before := by
    refine ⟨fun hmem => ?_, after, by rw [hpattern, hc]⟩
    simpa using hbefore _ hmem
  refine ⟨isBoundary_iff.2 ⟨_, _, hpattern, rfl⟩, fun hmatch => ?_⟩
  obtain ⟨rest, hkey⟩ := (keyMatch_star hhead key).1 hmatch
  exact isBoundary_iff.2 ⟨_, _, hkey.symm, rfl⟩

/-! ## Top theorem -/

/-- **A star at the end of a pattern covers any rest.**  A pattern without a star matches itself, one with a
star the keys that start with what stands before the first star.  Such a key is that and what the star
covers; a star that covers something is one of a pattern that matches.  Both are found at the offset of
the star, which is a boundary of the pattern, and of every key that matches; no key is cut inside a character. -/
theorem keyMatch_star_covers (key pattern : String) :
    (keyMatch key pattern = true ↔
      ('*' ∉ pattern.toList ∧ key = pattern) ∨ ∃ head, HasHead pattern head ∧ head <+: key.toList) ∧
    (∀ head, HasHead pattern head → keyMatch key pattern = true →
      key = String.ofList head ++ keyGet key pattern) ∧
    (keyGet key pattern ≠ "" → keyMatch key pattern = true) ∧
    keyMatchAt key pattern = keyMatch key pattern ∧
    keyGetAt key pattern = .ok (keyGet key pattern) ∧
    (∀ i, starOffset? pattern = some i → IsBoundary pattern i ∧
      (IsBoundary key i ∨ (keyMatch key pattern = false ∧ keyGet key pattern = ""))) := by
  refine ⟨keyMatch_iff key pattern, fun head h hmatch => ?_, fun hne => ?_, keyMatchAt_eq key pattern,
    keyGetAt_eq key pattern, fun i hi => ⟨(isBoundary_starOffset? hi key).1, ?_⟩⟩
  · obtain ⟨after, hkey⟩ := (keyMatch_star h key).1 hmatch
    rw [keyGet_append h hkey.symm, ← String.ofList_append, hkey, String.ofList_toList]
  · by_contra hmatch
    exact hne (keyGet_of_not_match (by simpa using hmatch))
  · cases hmatch : keyMatch key pattern with
    | false => exact Or.inr ⟨rfl, keyGet_of_not_match hmatch⟩
    | true => exact Or.inl ((isBoundary_starOffset? hi key).2 hmatch)

/-- The star covers what is behind an accented head; the offset of a star inside a letter of the key is none of
the key's boundaries. -/
theorem keyMatch_star_covers_accents :
    (keyMatch "/é/42" "/é/*" = true ∧ "/é/42" = "/é/" ++ keyGet "/é/42" "/é/*") ∧
      keyGetAt "/é/42" "/é/*" = .ok "42" ∧
      ¬ IsBoundary "é" 1 ∧ keyMatch "é" "a*" = false ∧ keyGetAt "é" "a*" = .ok "" := by
  have hhead : HasHead "/é/*" ['/', 'é', '/'] := ⟨by decide, [], by decide⟩
  obtain ⟨hiff, hsplit, -, -, hget, -⟩ := keyMatch_star_covers "/é/42" "/é/*"
  have hmatch : keyMatch "/é/42" "/é/*" = true := hiff.2 (Or.inr ⟨_, hhead, by decide⟩)
  have hinside : ¬ IsBoundary "é" 1 := by
    rw [IsBoundary]
    decide
  obtain ⟨-, -, -, -, hother, hoffset⟩ := keyMatch_star_covers "é" "a*"
  obtain ⟨hnone, hempty⟩ := ((hoffset 1 (by decide)).2).resolve_left hinside
  refine ⟨⟨hmatch, hsplit _ hhead hmatch⟩, ?_, hinside, hnone, by rw [hother, hempty]⟩
  rw [hget, keyGet_append hhead (by decide : "/é/42".toList = _ ++ ['4', '2'])]

end AccessControl
