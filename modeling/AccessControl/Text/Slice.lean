import AccessControl.Text.Offset
/-!
# Cutting texts at byte offsets

A text can be read byte by byte, and parts of it can be taken between two offsets, but only where its
characters end: an offset inside a character or past the end of the text is a `BadCut`.

* `cut`, `slice`, `sliceFrom`     the parts of a text before, between and behind offsets
* `upTo?`                         the part before an offset, asked for
* `byteAt?`, `offsetOf?`          one byte, and the offset of a character
-/

namespace AccessControl

/-- An offset at which a text cannot be cut. -/
structure BadCut where
  offset : Nat
  deriving Repr, DecidableEq

namespace Text

/-- An offset in a text at which a character starts, or its end. -/
def IsBoundary (s : String) (offset : Nat) : Prop := String.Pos.Raw.IsValid s ⟨offset⟩

/-- The text before and behind an offset. -/
def cut (s : String) (offset : Nat) : Except BadCut (String × String) :=
  match splitAtByte? offset s.toList with
  | some (before, after) => .ok (String.ofList before, String.ofList after)
  | none => .error ⟨offset⟩

/-- The text before an offset; `none` where it cannot be cut. -/
def upTo? (s : String) (offset : Nat) : Option String := (cut s offset).toOption.map (·.1)

/-- The text from an offset on. -/
def sliceFrom (s : String) (offset : Nat) : Except BadCut String := (cut s offset).map (·.2)

/-- The text between two offsets. -/
def slice (s : String) (start stop : Nat) : Except BadCut String :=
  match cut s stop with
  | .ok (front, _) => sliceFrom front start
  | .error bad => .error bad

/-- The byte at an offset, as the character with its number. -/
def byteAt? (s : String) (offset : Nat) : Option Char := s.toByteArray[offset]?.map Char.ofUInt8

/-- The offset of the first character of a kind. -/
def offsetOf? (p : Char → Bool) (s : String) : Option Nat :=
  match s.toList.dropWhile fun c => !p c with
  | [] => none
  | _ :: _ => some (byteLength (s.toList.takeWhile fun c => !p c))

/-! ## Between characters -/

variable {s : String} {before after : List Char}

/-- A text is cut between any two parts. -/
theorem cut_eq (h : s.toList = before ++ after) :
    cut s (byteLength before) = .ok (String.ofList before, String.ofList after) := by
  rw [cut, h, splitAtByte?_append]

theorem eq_of_cut {offset : Nat} {front back : String} (h : cut s offset = .ok (front, back)) :
    s.toList = front.toList ++ back.toList ∧ byteLength front.toList = offset := by
  unfold cut at h
  split at h
  · next before after hsplit =>
    obtain ⟨rfl, rfl⟩ := Prod.mk.inj (Except.ok.inj h)
    rw [String.toList_ofList, String.toList_ofList]
    exact splitAtByte?_eq_some hsplit
  · simp at h

theorem sliceFrom_eq (h : s.toList = before ++ after) :
    sliceFrom s (byteLength before) = .ok (String.ofList after) := by
  rw [sliceFrom, cut_eq h]
  rfl

theorem upTo?_eq (h : s.toList = before ++ after) : upTo? s (byteLength before) = some (String.ofList before) := by
  rw [upTo?, cut_eq h]
  rfl

/-- A part of a text is cut out of it. -/
theorem slice_eq {part : List Char} (h : s.toList = before ++ part ++ after) :
    slice s (byteLength before) (byteLength before + byteLength part) = .ok (String.ofList part) := by
  rw [slice, ← byteLength_append, cut_eq h]
  dsimp only
  rw [sliceFrom_eq (String.toList_ofList)]

theorem eq_of_sliceFrom {offset : Nat} {back : String} (h : sliceFrom s offset = .ok back) :
    ∃ front : List Char, s.toList = front ++ back.toList ∧ byteLength front = offset := by
  unfold sliceFrom at h
  cases hcut : cut s offset with
  | error bad => simp [hcut, Except.map] at h
  | ok parts =>
    obtain ⟨front, rest⟩ := parts
    rw [hcut] at h
    obtain rfl : rest = back := Except.ok.inj h
    exact ⟨front.toList, eq_of_cut hcut⟩

theorem mem_takeWhile_not {p : Char → Bool} {cs : List Char} {d : Char} (hd : d ∈ cs.takeWhile fun c => !p c) :
    p d = false := by
  have hall := List.all_eq_true.1 (List.all_takeWhile (p := fun c => !p c) (l := cs)) d hd
  simpa using hall

theorem offsetOf?_eq_some {p : Char → Bool} {offset : Nat} (h : offsetOf? p s = some offset) :
    ∃ before c after, s.toList = before ++ c :: after ∧ (∀ d ∈ before, p d = false) ∧ p c = true ∧
      byteLength before = offset := by
  have hparts := List.takeWhile_append_dropWhile (p := fun c => !p c) (l := s.toList)
  unfold offsetOf? at h
  split at h
  · simp at h
  · next c after hdrop =>
    have hhead := List.head?_dropWhile_not (fun c => !p c) s.toList
    rw [hdrop] at hparts hhead
    exact ⟨_, c, after, hparts.symm, fun _ => mem_takeWhile_not, by simpa using hhead, Option.some.inj h⟩

theorem offsetOf?_eq_none {p : Char → Bool} (h : ∀ c ∈ s.toList, p c = false) : offsetOf? p s = none := by
  cases hoffset : offsetOf? p s with
  | none => rfl
  | some offset =>
    obtain ⟨before, c, after, hs, -, hc, -⟩ := offsetOf?_eq_some hoffset
    rw [h c (by rw [hs]; simp)] at hc
    simp at hc

/-- The first character of a kind is found where it is. -/
theorem offsetOf?_eq {p : Char → Bool} {c : Char} (h : s.toList = before ++ c :: after)
    (hbefore : ∀ d ∈ before, p d = false) (hc : p c = true) : offsetOf? p s = some (byteLength before) := by
  have hall : ∀ d ∈ before, (!p d) = true := fun d hd => by rw [hbefore d hd]; rfl
  have htake : (before ++ c :: after).takeWhile (fun d => !p d) = before := by
    rw [List.takeWhile_append_of_pos hall, List.takeWhile_cons_of_neg (by simp [hc]), List.append_nil]
  have hdrop : (before ++ c :: after).dropWhile (fun d => !p d) = c :: after := by
    rw [List.dropWhile_append_of_pos hall, List.dropWhile_cons_of_neg (by simp [hc])]
  rw [offsetOf?, h, hdrop, htake]

end Text

end AccessControl
