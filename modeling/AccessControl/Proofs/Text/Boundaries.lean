import AccessControl.Text.Slice
import Mathlib.Data.List.Basic
/-!
# Bytes and characters

The bytes of a text are those of its characters, one after the other.  An offset is between two characters, or
at an end, exactly where the text falls apart into characters before and behind it, and only there can it
be cut.  A byte there is the character that starts there, when that is one byte long; and a byte of a longer
character is no character that is one byte long.

    IsBoundary s offset ↔ there are characters behind it                      (`isBoundary_iff`)
    IsBoundary s offset ↔ s can be cut there                                  (`isBoundary_iff_cut`)
    the byte at an offset with c behind it shows c                            (`Behind.exists_byteAt?`)
-/

namespace AccessControl

namespace Text

/-! ## Bytes -/

/-- The bytes of the UTF-8 form. -/
def bytes (cs : List Char) : List UInt8 := cs.flatMap String.utf8EncodeChar

theorem bytes_append (a b : List Char) : bytes (a ++ b) = bytes a ++ bytes b := List.flatMap_append

theorem length_bytes (cs : List Char) : (bytes cs).length = byteLength cs := by
  induction cs with
  | nil => rfl
  | cons c cs ih =>
    rw [bytes, List.flatMap_cons, List.length_append, String.length_utf8EncodeChar, byteLength, ← ih,
      bytes]

theorem toList_toByteArray (text : String) : text.toByteArray.data.toList = bytes text.toList := by
  conv_lhs => rw [← String.ofList_toList (s := text)]
  rw [String.toByteArray_ofList, List.utf8Encode, List.data_toByteArray]
  rfl

theorem getElem?_toByteArray (text : String) (i : Nat) :
    text.toByteArray[i]? = (bytes text.toList)[i]? := by
  rw [← toList_toByteArray, Array.getElem?_toList]
  rfl

theorem utf8ByteSize_eq (text : String) : text.utf8ByteSize = byteLength text.toList := by
  rw [← length_bytes, ← toList_toByteArray]
  rfl

theorem byteLength_pos {cs : List Char} (h : cs ≠ []) : 0 < byteLength cs := by
  obtain ⟨c, rest, rfl⟩ := List.exists_cons_of_ne_nil h
  have hpos := c.utf8Size_pos
  rw [byteLength]
  omega

/-! ## Boundaries -/

/-- The characters of a text behind an offset; those before it have as many bytes as it counts. -/
def Behind (s : String) (offset : Nat) (cs : List Char) : Prop :=
  ∃ before, s.toList = before ++ cs ∧ byteLength before = offset

/-- A boundary is an offset with characters behind it. -/
theorem isBoundary_iff {s : String} {offset : Nat} : IsBoundary s offset ↔ ∃ cs, Behind s offset cs := by
  rw [IsBoundary, String.Pos.Raw.isValid_iff_exists_append]
  constructor
  · rintro ⟨front, back, rfl, hend⟩
    refine ⟨back.toList, front.toList, String.toList_append, ?_⟩
    rw [← utf8ByteSize_eq]
    exact (congrArg String.Pos.Raw.byteIdx hend).symm
  · rintro ⟨cs, before, hs, rfl⟩
    refine ⟨String.ofList before, String.ofList cs, ?_, ?_⟩
    · rw [← String.ofList_append, ← hs, String.ofList_toList]
    · rw [String.rawEndPos, utf8ByteSize_eq, String.toList_ofList]

theorem behind_zero (s : String) : Behind s 0 s.toList := ⟨[], rfl, rfl⟩

theorem behind_end (s : String) : Behind s s.utf8ByteSize [] :=
  ⟨s.toList, (List.append_nil _).symm, (utf8ByteSize_eq s).symm⟩

section

variable {s : String} {offset : Nat} {c : Char} {cs part : List Char}

namespace Behind

theorem isBoundary (h : Behind s offset cs) : IsBoundary s offset := isBoundary_iff.2 ⟨cs, h⟩

theorem offset_add (h : Behind s offset cs) : offset + byteLength cs = s.utf8ByteSize := by
  obtain ⟨before, hs, rfl⟩ := h
  rw [utf8ByteSize_eq, hs, byteLength_append]

theorem append (h : Behind s offset (part ++ cs)) : Behind s (offset + byteLength part) cs := by
  obtain ⟨before, hs, rfl⟩ := h
  exact ⟨before ++ part, by rw [hs, List.append_assoc], byteLength_append before part⟩

theorem sliceFrom_eq (h : Behind s offset cs) : sliceFrom s offset = .ok (String.ofList cs) := by
  obtain ⟨before, hs, rfl⟩ := h
  exact Text.sliceFrom_eq hs

/-- A part of a text is cut out of it. -/
theorem slice_eq (h : Behind s offset (part ++ cs)) :
    slice s offset (offset + byteLength part) = .ok (String.ofList part) := by
  obtain ⟨before, hs, rfl⟩ := h
  exact Text.slice_eq (by rw [hs, List.append_assoc])

end Behind

theorem IsBoundary.le (h : IsBoundary s offset) : offset ≤ s.utf8ByteSize := by
  obtain ⟨cs, hcs⟩ := isBoundary_iff.1 h
  rw [← hcs.offset_add]
  exact Nat.le_add_right _ _

/-- **A text can be cut at its boundaries, and nowhere else.** -/
theorem isBoundary_iff_cut : IsBoundary s offset ↔ ∃ parts, cut s offset = .ok parts := by
  rw [isBoundary_iff]
  constructor
  · rintro ⟨cs, before, hs, rfl⟩
    exact ⟨_, cut_eq hs⟩
  · rintro ⟨⟨front, back⟩, hcut⟩
    exact ⟨back.toList, front.toList, eq_of_cut hcut⟩

/-- What is before an offset is the start of the text with that many bytes. -/
theorem upTo?_eq_some_iff {front : String} :
    upTo? s offset = some front ↔ front.toList <+: s.toList ∧ byteLength front.toList = offset := by
  constructor
  · intro h
    unfold upTo? at h
    cases hcut : cut s offset with
    | error bad => simp [hcut, Except.toOption] at h
    | ok parts =>
      rw [hcut] at h
      obtain rfl : parts.1 = front := Option.some.inj h
      obtain ⟨hs, hlength⟩ := eq_of_cut hcut
      exact ⟨⟨_, hs.symm⟩, hlength⟩
  · rintro ⟨⟨back, hs⟩, rfl⟩
    rw [upTo?_eq hs.symm, String.ofList_toList]

/-! ## A byte at a boundary -/

/-- What the byte at which a character starts tells of it: which character it is, when that is one byte long. -/
def Shows (byte c : Char) : Prop := (byte = c ∧ c.toNat < 128) ∨ (128 ≤ byte.toNat ∧ 128 ≤ c.toNat)

theorem toNat_ofUInt8 (b : UInt8) : (Char.ofUInt8 b).toNat = b.toNat := rfl

/-- A character of one byte is its byte, the first byte of another one is none. -/
theorem exists_utf8EncodeChar (c : Char) :
    ∃ b more, String.utf8EncodeChar c = b :: more ∧ Shows (Char.ofUInt8 b) c := by
  have hlong : ∀ x lead : UInt8, 128 ≤ lead.toNat → 128 ≤ (Char.ofUInt8 (x ||| lead)).toNat := by
    intro x lead hlead
    rw [toNat_ofUInt8, UInt8.toNat_or]
    exact Nat.le_trans hlead Nat.right_le_or
  rw [String.utf8EncodeChar_eq_utf8EncodeCharFast]
  unfold String.utf8EncodeCharFast
  dsimp only
  split
  · next hone =>
    rw [UInt32.le_iff_toNat_le] at hone
    have hc : c.toNat ≤ 127 := hone
    refine ⟨_, _, rfl, Or.inl ⟨?_, by omega⟩⟩
    rw [← Char.toNat_inj, toNat_ofUInt8, UInt32.toNat_toUInt8]
    exact Nat.mod_eq_of_lt (by change c.toNat < 256; omega)
  · next hone =>
    rw [UInt32.le_iff_toNat_le] at hone
    have hc : 128 ≤ c.toNat := Nat.lt_of_not_le hone
    split
    · exact ⟨_, _, rfl, Or.inr ⟨hlong _ _ (by decide), hc⟩⟩
    · split
      · exact ⟨_, _, rfl, Or.inr ⟨hlong _ _ (by decide), hc⟩⟩
      · exact ⟨_, _, rfl, Or.inr ⟨hlong _ _ (by decide), hc⟩⟩

/-- The byte at which a character starts. -/
theorem Behind.exists_byteAt? (h : Behind s offset (c :: cs)) :
    ∃ byte, byteAt? s offset = some byte ∧ Shows byte c := by
  obtain ⟨before, hs, rfl⟩ := h
  obtain ⟨b, more, hencode, hshows⟩ := exists_utf8EncodeChar c
  refine ⟨Char.ofUInt8 b, ?_, hshows⟩
  have hbytes : bytes s.toList = bytes before ++ b :: (more ++ bytes cs) := by
    rw [hs, bytes_append, ← List.cons_append, ← hencode]
    rfl
  rw [byteAt?, getElem?_toByteArray, hbytes, ← length_bytes, List.getElem?_append_right (Nat.le_refl _),
    Nat.sub_self]
  rfl

theorem Behind.byteAt?_nil (h : Behind s offset []) : byteAt? s offset = none := by
  have hend : offset = (bytes s.toList).length := by rw [length_bytes, ← utf8ByteSize_eq, ← h.offset_add]; rfl
  rw [byteAt?, getElem?_toByteArray, hend, List.getElem?_eq_none (Nat.le_refl _)]
  rfl

theorem Behind.lt (h : Behind s offset (c :: cs)) : offset < s.utf8ByteSize := by
  have hpos := c.utf8Size_pos
  rw [← h.offset_add, byteLength]
  omega

/-! ## Characters of one byte -/

theorem utf8Size_oneByte (hc : c.toNat < 128) : c.utf8Size = 1 := by
  rw [Char.utf8Size_eq_one_iff, UInt32.le_iff_toNat_le]
  exact Nat.le_of_lt_succ hc

theorem Behind.next (h : Behind s offset (c :: cs)) (hc : c.toNat < 128) : Behind s (offset + 1) cs := by
  have hsize : byteLength [c] = 1 := utf8Size_oneByte hc
  rw [← hsize]
  exact Behind.append h

/-- Kinds of characters that are one byte long each. -/
def OneByte (p : Char → Bool) : Prop := ∀ c, p c = true → c.toNat < 128

variable {p : Char → Bool}

theorem OneByte.eq_false (hp : OneByte p) (hc : 128 ≤ c.toNat) : p c = false := by
  rw [Bool.eq_false_iff]
  exact fun htrue => absurd (hp c htrue) (by omega)

/-- A byte is of such a kind when the character that starts there is. -/
theorem Shows.eq_of_oneByte (hp : OneByte p) {byte : Char} (h : Shows byte c) : p byte = p c := by
  rcases h with ⟨rfl, -⟩ | ⟨hbyte, hc⟩
  · rfl
  · rw [hp.eq_false hbyte, hp.eq_false hc]

/-- The kind of the byte at an offset is that of the character there. -/
theorem Behind.any_byteAt? (h : Behind s offset cs) (hp : OneByte p) :
    (byteAt? s offset).any p = cs.head?.any p := by
  cases cs with
  | nil =>
    rw [h.byteAt?_nil]
    rfl
  | cons c cs =>
    obtain ⟨byte, hbyte, hshows⟩ := h.exists_byteAt?
    rw [hbyte]
    exact hshows.eq_of_oneByte hp

theorem Behind.byteAt?_eq_some_iff (h : Behind s offset cs) (hc : c.toNat < 128) :
    byteAt? s offset = some c ↔ cs.head? = some c := by
  have hkind : OneByte (· == c) := by
    intro d hd
    rw [beq_iff_eq] at hd
    rwa [hd]
  have hany : ∀ o : Option Char, o.any (· == c) = true ↔ o = some c := by
    intro o
    cases o <;> simp
  rw [← hany, ← hany, h.any_byteAt? hkind]

end

end Text

end AccessControl
