/-!
# Sets of characters

A set of characters is a list of ranges of code points in ascending order, none of which touches the
next one, so that two sets of the same characters have the same ranges.

    a set of one character holds that character alone      (`CharSet.contains_single`)
    sorting and joining ranges keeps what they hold        (`CharSet.contains_ofRanges`)
    a union holds what one of the sets holds               (`CharSet.contains_union`)
    an intersection holds what both sets hold              (`CharSet.contains_inter`)

The code points from `D800` to `DFFF` are no characters: the character behind `D7FF` is `E000`.
-/

namespace AccessControl

/-- The code points from the first to the last one. -/
structure CharRange where
  first : Nat
  last : Nat
  deriving Repr, DecidableEq

namespace CharRange

/-- Whether a code point lies in a range. -/
def holds (r : CharRange) (n : Nat) : Bool := decide (r.first ≤ n) && decide (n ≤ r.last)

/-- The character behind a character. -/
def after (n : Nat) : Nat := if n = 0xD7FF then 0xE000 else n + 1

/-- The character before a character. -/
def before (n : Nat) : Nat := if n = 0xE000 then 0xD7FF else n - 1

/-- The range with these ends.  The empty gap between `D7FF` and `E000` has its ends the other way
round, and stands for the two characters beside it. -/
def between (a b : Nat) : CharRange := if a ≤ b then ⟨a, b⟩ else ⟨b, a⟩

/-- The part of a range below a code point, if there is one. -/
def below (r : CharRange) (n : Nat) : List CharRange :=
  if r.first < n then [between r.first (before n)] else []

/-- The part of a range above a code point, if there is one. -/
def above (r : CharRange) (n : Nat) : List CharRange :=
  if n < r.last then [between (after n) r.last] else []

/-- The common part of two ranges. -/
def meet? (r s : CharRange) : Option CharRange :=
  let first := max r.first s.first
  let last := min r.last s.last
  if first ≤ last then some ⟨first, last⟩ else none

/-- What a range leaves of another one. -/
def minus (r s : CharRange) : List CharRange :=
  if s.last < r.first || r.last < s.first then [r] else r.below s.first ++ r.above s.last

end CharRange

structure CharSet where
  ranges : List CharRange
  deriving Repr, DecidableEq

namespace CharSet

/-- Whether a code point lies in a set. -/
def holds (s : CharSet) (n : Nat) : Bool := s.ranges.any fun r => r.holds n

def contains (s : CharSet) (c : Char) : Bool := s.holds c.toNat

def empty : CharSet := ⟨[]⟩

/-- Every character. -/
def all : CharSet := ⟨[⟨0, 0x10FFFF⟩]⟩

/-- The set of one character. -/
def single (c : Char) : CharSet := ⟨[⟨c.toNat, c.toNat⟩]⟩

/-- Joins a range with those of an ascending list that touch it. -/
def joinFrom (r : CharRange) : List CharRange → List CharRange
  | [] => [r]
  | s :: rest =>
    if s.first ≤ r.last + 1 then joinFrom ⟨r.first, max r.last s.last⟩ rest
    else r :: joinFrom s rest

/-- The set of ranges in any order. -/
def ofRanges (rs : List CharRange) : CharSet :=
  match rs.mergeSort fun a b => decide (a.first ≤ b.first) with
  | [] => empty
  | r :: rest => ⟨joinFrom r rest⟩

/-- The characters from one to another. -/
def range (first last : Char) : CharSet := ⟨[⟨first.toNat, last.toNat⟩]⟩

def union (a b : CharSet) : CharSet := ofRanges (a.ranges ++ b.ranges)

/-- The union of sets. -/
def unions (sets : List CharSet) : CharSet := ofRanges (sets.flatMap ranges)

/-- The gaps behind a range that ends at `last`. -/
def gapsFrom (last : Nat) : List CharRange → List CharRange
  | [] => if last < 0x10FFFF then [CharRange.between (CharRange.after last) 0x10FFFF] else []
  | r :: rest =>
    CharRange.between (CharRange.after last) (CharRange.before r.first) :: gapsFrom r.last rest

/-- The characters outside a set. -/
def compl (s : CharSet) : CharSet :=
  match s.ranges with
  | [] => all
  | r :: rest => ⟨CharRange.below ⟨0, 0x10FFFF⟩ r.first ++ gapsFrom r.last rest⟩

/-- The characters in both sets. -/
def inter (a b : CharSet) : CharSet :=
  ⟨a.ranges.flatMap fun r => b.ranges.filterMap r.meet?⟩

/-- The characters of the first set that are not in the second one. -/
def diff (a b : CharSet) : CharSet :=
  ⟨a.ranges.flatMap fun r => b.ranges.foldl (fun pieces s => pieces.flatMap (·.minus s)) [r]⟩

/-- The characters in exactly one of two sets. -/
def symmDiff (a b : CharSet) : CharSet := (a.union b).diff (a.inter b)

/-- The characters of a set below `80`, all of them. -/
def isAscii (s : CharSet) : Bool := s.ranges.all fun r => decide (r.last < 0x80)

/-- The character of a set of one character. -/
def onlyChar? (s : CharSet) : Option Char :=
  match s.ranges with
  | [r] => if r.first = r.last then some (Char.ofNat r.first) else none
  | _ => none

/-! ## What sets hold -/

theorem holds_iff {r : CharRange} {n : Nat} : r.holds n = true ↔ r.first ≤ n ∧ n ≤ r.last := by
  simp [CharRange.holds]

theorem holds_of_meet? {r s t : CharRange} {n : Nat} (h : r.meet? s = some t) :
    t.holds n = true ↔ r.holds n = true ∧ s.holds n = true := by
  simp only [CharRange.meet?] at h
  split at h
  · obtain rfl := Option.some.inj h
    simp only [holds_iff]
    omega
  · simp at h

theorem meet?_isSome {r s : CharRange} {n : Nat} (hr : r.holds n = true) (hs : s.holds n = true) :
    ∃ t, r.meet? s = some t := by
  rw [holds_iff] at hr hs
  exact ⟨_, if_pos (by omega)⟩

theorem contains_mk {rs : List CharRange} {c : Char} :
    (CharSet.mk rs).contains c = true ↔ ∃ r ∈ rs, r.holds c.toNat = true := by
  simp [contains, holds]

@[simp] theorem contains_single (a c : Char) : (single a).contains c = true ↔ c = a := by
  simp only [single, contains_mk, List.mem_singleton, exists_eq_left, holds_iff]
  constructor
  · intro h
    exact Char.toNat_inj.1 (Nat.le_antisymm h.2 h.1)
  · rintro rfl
    exact ⟨Nat.le_refl _, Nat.le_refl _⟩

@[simp] theorem contains_inter (a b : CharSet) (c : Char) :
    (a.inter b).contains c = (a.contains c && b.contains c) := by
  rw [Bool.eq_iff_iff, Bool.and_eq_true]
  simp only [inter, contains, holds, List.any_eq_true, List.mem_flatMap, List.mem_filterMap]
  constructor
  · rintro ⟨t, ⟨r, hr, s, hs, ht⟩, hc⟩
    obtain ⟨h1, h2⟩ := (holds_of_meet? ht).1 hc
    exact ⟨⟨r, hr, h1⟩, ⟨s, hs, h2⟩⟩
  · rintro ⟨⟨r, hr, h1⟩, ⟨s, hs, h2⟩⟩
    obtain ⟨t, ht⟩ := meet?_isSome h1 h2
    exact ⟨t, ⟨r, hr, s, hs, ht⟩, (holds_of_meet? ht).2 ⟨h1, h2⟩⟩

/-- Joining ranges that touch keeps what they hold, as long as none starts before the first one. -/
theorem holds_joinFrom {n : Nat} : ∀ (rest : List CharRange) (r : CharRange),
    (∀ s ∈ rest, r.first ≤ s.first) → (rest.Pairwise fun a b => a.first ≤ b.first) →
      ((∃ s ∈ joinFrom r rest, s.holds n = true) ↔
        r.holds n = true ∨ ∃ s ∈ rest, s.holds n = true)
  | [], r, _, _ => by simp [joinFrom]
  | s :: rest, r, hr, hs => by
    have hs' := List.pairwise_cons.1 hs
    have hrs := hr s (List.mem_cons_self ..)
    unfold joinFrom
    split
    · next touching =>
      have ih := holds_joinFrom (n := n) rest ⟨r.first, max r.last s.last⟩
        (fun t ht => hr t (List.mem_cons_of_mem _ ht)) hs'.2
      rw [ih]
      simp only [holds_iff, List.mem_cons, exists_eq_or_imp]
      constructor
      · rintro (h | h)
        · by_cases hn : n ≤ r.last
          · exact .inl ⟨h.1, hn⟩
          · exact .inr (.inl (by omega))
        · exact .inr (.inr h)
      · rintro (h | h | h)
        · exact .inl (by omega)
        · exact .inl (by omega)
        · exact .inr h
    · next apart =>
      have ih := holds_joinFrom (n := n) rest s hs'.1 hs'.2
      simp only [List.mem_cons, exists_eq_or_imp, ih]

/-- Sorting ranges and joining those that touch keeps what they hold. -/
@[simp] theorem contains_ofRanges (rs : List CharRange) (c : Char) :
    (ofRanges rs).contains c = rs.any fun r => r.holds c.toNat := by
  let le (a b : CharRange) : Bool := decide (a.first ≤ b.first)
  have sorted : (rs.mergeSort le).Pairwise fun a b => le a b = true := List.pairwise_mergeSort
    (fun a b c => by simpa [le] using Nat.le_trans) (fun a b => by simpa [le] using Nat.le_total ..) rs
  have perm := List.mergeSort_perm rs le
  rw [← perm.any_eq]
  unfold ofRanges
  change CharSet.contains (match rs.mergeSort le with
    | [] => empty
    | r :: rest => ⟨joinFrom r rest⟩) c = _
  split
  · next h => simp [h, empty, contains, holds]
  · next r rest h =>
    rw [h] at sorted ⊢
    have sorted := List.pairwise_cons.1 sorted
    rw [Bool.eq_iff_iff, contains_mk, holds_joinFrom rest r (by simpa [le] using sorted.1)
      (by simpa [le] using sorted.2)]
    simp

@[simp] theorem contains_union (a b : CharSet) (c : Char) :
    (a.union b).contains c = (a.contains c || b.contains c) := by
  rw [union, contains_ofRanges, List.any_append]
  rfl

end CharSet

end AccessControl
