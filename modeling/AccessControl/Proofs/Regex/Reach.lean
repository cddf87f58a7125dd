import AccessControl.Proofs.Regex.Matches
/-!
# Two readings of a pattern

Whether a pattern matches somewhere is asked of the positions it reaches, and which text a group matched of
the search for the preferred match.  Both find what `Pattern.Leads` says.

    the positions reached from some positions                  (`marks_reach`)
    a pattern matches in a text iff it leads somewhere         (`matchesIn_iff`)
    the search finds a match iff there is one                  (`search_isSome_iff`)
-/

namespace AccessControl.Regex

variable {text : Array Char}

namespace Positions

/-- Whether a position is among some. -/
def Marks (s : Positions) (i : Nat) : Prop := s[i]? = some true

variable {s t : Positions} {i j : Nat}

theorem marks_union (h : s.length = t.length) :
    Marks (union s t) i ↔ Marks s i ∨ Marks t i := by
  unfold Marks union
  rw [List.getElem?_zipWith]
  by_cases hi : i < s.length
  · rw [List.getElem?_eq_getElem hi, List.getElem?_eq_getElem (h ▸ hi)]
    simp
  · rw [List.getElem?_eq_none (by omega), List.getElem?_eq_none (by omega)]
    simp

theorem length_union (h : s.length = t.length) : (union s t).length = s.length := by
  rw [union, List.length_zipWith, h, Nat.min_self]

theorem length_advance {test : Char → Bool} (hs : s.length = text.size + 1) :
    (advance text test s).length = text.size + 1 := by
  rw [advance, List.length_cons, List.length_zipWith, hs, Array.length_toList]
  omega

theorem marks_advance {test : Char → Bool} : Marks (advance text test s) j ↔
    ∃ i, Marks s i ∧ j = i + 1 ∧ ∃ c, text[i]? = some c ∧ test c = true := by
  unfold Marks advance
  cases j with
  | zero => simp
  | succ i =>
    rw [List.getElem?_cons_succ, List.getElem?_zipWith]
    simp only [Nat.add_right_cancel_iff, ← Array.getElem?_toList]
    constructor
    · intro h
      split at h
      · next marked c hmarked hc =>
        obtain ⟨rfl, htest⟩ := Bool.and_eq_true_iff.1 (Option.some.inj h)
        exact ⟨i, hmarked, rfl, c, hc, htest⟩
      · exact absurd h (by simp)
    · rintro ⟨_, hmarked, rfl, c, hc, htest⟩
      rw [hmarked, hc]
      simp [htest]

/-- What a step does to positions: it reaches those to which one of them leads. -/
structure Reaches (size : Nat) (R : Nat → Nat → Prop) (step : Positions → Positions) : Prop where
  length : ∀ {s}, s.length = size → (step s).length = size
  marks : ∀ {s j}, s.length = size → (Marks (step s) j ↔ ∃ i, Marks s i ∧ R i j)

namespace Reaches

variable {size : Nat} {R : Nat → Nat → Prop} {step : Positions → Positions}

theorem exactly (h : Reaches size R step) (n : Nat) :
    Reaches size (Steps R n) (Positions.exactly step n) := by
  induction n with
  | zero => exact ⟨id, fun _ => by simp [Positions.exactly, Steps]⟩
  | succ n ih =>
    refine ⟨fun hs => ih.length (h.length hs), fun hs => ?_⟩
    rw [Positions.exactly, ih.marks (h.length hs)]
    simp only [h.marks hs, Steps]
    constructor
    · rintro ⟨k, ⟨i, hi, hk⟩, hj⟩
      exact ⟨i, hi, k, hk, hj⟩
    · rintro ⟨i, hi, k, hk, hj⟩
      exact ⟨k, ⟨i, hi, hk⟩, hj⟩

/-- Steps out of positions that a step does not leave stay in them. -/
theorem marks_of_steps (h : Reaches size R step) (hs : s.length = size)
    (hclosed : ∀ j, Marks (step s) j → Marks s j) {n : Nat} (hi : Marks s i) (hj : Steps R n i j) :
    Marks s j := by
  induction n generalizing i with
  | zero => rwa [← show i = j from hj]
  | succ n ih =>
    obtain ⟨k, hk, hsteps⟩ := hj
    exact ih (hclosed k ((h.marks hs).2 ⟨i, hi, hk⟩)) hsteps

theorem upTo (h : Reaches size R step) (n : Nat) :
    Reaches size (fun i j => ∃ k ≤ n, Steps R k i j) (Positions.upTo step n) := by
  induction n with
  | zero => exact ⟨id, fun _ => by simp [Positions.upTo, Steps]⟩
  | succ n ih =>
    have hunion : ∀ {s : Positions}, s.length = size → (union s (step s)).length = size :=
      fun hs => (length_union (hs.trans (h.length hs).symm)).trans hs
    have hmarks : ∀ {s : Positions} {j : Nat}, s.length = size →
        (Marks (union s (step s)) j ↔ Marks s j ∨ ∃ i, Marks s i ∧ R i j) := fun hs => by
      rw [marks_union (hs.trans (h.length hs).symm), h.marks hs]
    constructor
    · intro s hs
      unfold Positions.upTo
      dsimp only
      split
      · exact hs
      · exact ih.length (hunion hs)
    · intro s j hs
      unfold Positions.upTo
      dsimp only
      split
      · next hsame =>
        have hclosed : ∀ j, Marks (step s) j → Marks s j := fun j hj => by
          rw [← hsame]
          exact (marks_union (hs.trans (h.length hs).symm)).2 (Or.inr hj)
        constructor
        · intro hj
          exact ⟨j, hj, 0, Nat.zero_le _, rfl⟩
        · rintro ⟨i, hi, k, -, hk⟩
          exact h.marks_of_steps hs hclosed hi hk
      · rw [ih.marks (hunion hs)]
        constructor
        · rintro ⟨i, hi, k, hk, hsteps⟩
          rcases (hmarks hs).1 hi with hold | ⟨first, hfirst, hstep⟩
          · exact ⟨i, hold, k, Nat.le_succ_of_le hk, hsteps⟩
          · exact ⟨first, hfirst, k + 1, Nat.succ_le_succ hk, i, hstep, hsteps⟩
        · rintro ⟨i, hi, k, hk, hsteps⟩
          cases k with
          | zero => exact ⟨i, (hmarks hs).2 (Or.inl hi), 0, Nat.zero_le _, hsteps⟩
          | succ k =>
            obtain ⟨r, hr, hsteps⟩ := hsteps
            exact ⟨r, (hmarks hs).2 (Or.inr ⟨i, hi, hr⟩), k, Nat.le_of_succ_le_succ hk, hsteps⟩

end Reaches

end Positions

namespace Pattern

open Positions (Marks Reaches)

/-- A match of a pattern from a position to a position. -/
def Spans (text : Array Char) (P : Pattern) (i j : Nat) : Prop :=
  ∃ q, P.Leads text ⟨i, []⟩ q ∧ q.pos = j

variable {P : Pattern} {p : Place} {i j : Nat}

theorem spans_iff (hp : p.pos = i) : P.Spans text i j ↔ ∃ q, P.Leads text p q ∧ q.pos = j := by
  constructor
  · rintro ⟨q, hq, rfl⟩
    exact hq.exists_leads hp
  · rintro ⟨q, hq, rfl⟩
    exact hq.exists_leads hp.symm

theorem spans_seq {a b : Pattern} :
    (Pattern.seq a b).Spans text i j ↔ ∃ k, a.Spans text i k ∧ b.Spans text k j := by
  constructor
  · rintro ⟨q, ⟨r, hr, hq⟩, rfl⟩
    exact ⟨r.pos, ⟨r, hr, rfl⟩, (spans_iff rfl).2 ⟨q, hq, rfl⟩⟩
  · rintro ⟨k, ⟨r, hr, rfl⟩, hb⟩
    obtain ⟨q, hq, rfl⟩ := (spans_iff rfl).1 hb
    exact ⟨q, ⟨r, hr, hq⟩, rfl⟩

theorem steps_spans {n : Nat} (hp : p.pos = i) :
    Steps (P.Spans text) n i j ↔ ∃ q, Steps (P.Leads text) n p q ∧ q.pos = j := by
  induction n generalizing p i with
  | zero => simp [Steps, ← hp]
  | succ n ih =>
    constructor
    · rintro ⟨k, hk, hsteps⟩
      obtain ⟨r, hr, hrpos⟩ := (spans_iff hp).1 hk
      obtain ⟨q, hq, hqpos⟩ := (ih hrpos).1 hsteps
      exact ⟨q, ⟨r, hr, hq⟩, hqpos⟩
    · rintro ⟨q, ⟨r, hr, hq⟩, hqpos⟩
      exact ⟨r.pos, (spans_iff hp).2 ⟨r, hr, rfl⟩, (ih rfl).2 ⟨q, hq, hqpos⟩⟩

/-- A literal goes on with one character after the other. -/
theorem spans_literal_cons {c : Char} {cs : List Char} : (Pattern.literal (c :: cs)).Spans text i j ↔
    text[i]? = some c ∧ (Pattern.literal cs).Spans text (i + 1) j := by
  simp only [Spans, Leads, ↓existsAndEq, and_true, List.length_cons]
  rw [Place.getElem?_eq_some_iff_drop]
  constructor
  · rintro ⟨⟨rest, hrest⟩, rfl⟩
    have hdrop : text.toList.drop (i + 1) = cs ++ rest := by
      rw [← List.drop_drop, ← hrest]
      rfl
    exact ⟨by rw [← hrest, hdrop]; rfl, ⟨rest, hdrop.symm⟩, by omega⟩
  · rintro ⟨hc, hcs, rfl⟩
    rw [hc, List.cons_prefix_cons]
    exact ⟨⟨rfl, hcs⟩, by omega⟩

variable {s : Positions}

theorem reaches_literal (cs : List Char) :
    Reaches (text.size + 1) ((Pattern.literal cs).Spans text) ((Pattern.literal cs).reach text) := by
  induction cs with
  | nil => exact ⟨id, fun _ => by simp [reach, Spans, Leads]⟩
  | cons c cs ih =>
    refine ⟨fun hs => ih.length (Positions.length_advance hs), fun hs => ?_⟩
    rw [reach, List.foldl_cons, ← reach, ih.marks (Positions.length_advance hs)]
    simp only [Positions.marks_advance, spans_literal_cons]
    constructor
    · rintro ⟨_, ⟨i, hi, rfl, d, hd, hdc⟩, hj⟩
      rw [← eq_of_beq hdc]
      exact ⟨i, hi, hd, hj⟩
    · rintro ⟨i, hi, hc, hj⟩
      exact ⟨i + 1, ⟨i, hi, rfl, c, hc, beq_self_eq_true c⟩, hj⟩

theorem reaches_chars (set : CharSet) :
    Reaches (text.size + 1) ((Pattern.chars set).Spans text) ((Pattern.chars set).reach text) := by
  refine ⟨Positions.length_advance, fun hs => ?_⟩
  rw [reach, Positions.marks_advance]
  refine exists_congr fun i => and_congr_right fun _ => ?_
  constructor
  · rintro ⟨rfl, c, hc, hset⟩
    exact ⟨_, ⟨c, hc, hset, rfl⟩, rfl⟩
  · rintro ⟨_, ⟨c, hc, hset, rfl⟩, rfl⟩
    exact ⟨rfl, c, hc, hset⟩

theorem spans_times {n : Nat} {greedy : Bool} :
    (P.times n none greedy).Spans text i j ↔ ∃ more, Steps (P.Spans text) (n + more) i j := by
  simp only [steps_spans (p := ⟨i, []⟩) rfl, Spans, Leads]
  constructor
  · rintro ⟨q, ⟨more, -, hq⟩, hpos⟩
    exact ⟨more, q, hq, hpos⟩
  · rintro ⟨more, q, hq, hpos⟩
    exact ⟨q, ⟨more, by simp, hq⟩, hpos⟩

/-- The positions a pattern reaches are those it leads to. -/
theorem marks_reach (hP : P.RepeatsChars) :
    Reaches (text.size + 1) (P.Spans text) (P.reach text) := by
  induction P with
  | empty => exact ⟨id, fun _ => by simp [reach, Spans, Leads]⟩
  | literal cs => exact reaches_literal cs
  | chars set => exact reaches_chars set
  | look l =>
    refine ⟨fun hs => by rw [reach, List.length_mapIdx, hs], fun hs => ?_⟩
    simp only [reach, Marks, List.getElem?_mapIdx, Spans, Leads]
    constructor
    · intro h
      obtain ⟨marked, hmarked, heq⟩ := Option.map_eq_some_iff.1 h
      obtain ⟨rfl, hl⟩ := Bool.and_eq_true_iff.1 heq
      exact ⟨_, hmarked, _, ⟨hl, rfl⟩, rfl⟩
    · rintro ⟨i, hmarked, _, ⟨hl, rfl⟩, rfl⟩
      rw [hmarked]
      simpa using hl
  | group index body ih =>
    refine ⟨(ih hP).length, fun hs => ?_⟩
    rw [reach, (ih hP).marks hs]
    refine exists_congr fun i => and_congr_right fun _ => ?_
    simp only [Spans, Leads]
    constructor
    · rintro ⟨q, hq, hpos⟩
      exact ⟨_, ⟨q, hq, rfl⟩, hpos⟩
    · rintro ⟨_, ⟨q, hq, rfl⟩, hpos⟩
      exact ⟨q, hq, hpos⟩
  | seq first second ihFirst ihSecond =>
    refine ⟨fun hs => (ihSecond hP.2).length ((ihFirst hP.1).length hs), fun hs => ?_⟩
    rw [reach, (ihSecond hP.2).marks ((ihFirst hP.1).length hs)]
    simp only [(ihFirst hP.1).marks hs, spans_seq]
    constructor
    · rintro ⟨k, ⟨i, hi, hk⟩, hj⟩
      exact ⟨i, hi, k, hk, hj⟩
    · rintro ⟨i, hi, k, hk, hj⟩
      exact ⟨k, ⟨i, hi, hk⟩, hj⟩
  | alt left right ihLeft ihRight =>
    have hlength : ∀ {s : Positions}, s.length = text.size + 1 →
        (left.reach text s).length = (right.reach text s).length := fun hs =>
      ((ihLeft hP.1).length hs).trans ((ihRight hP.2).length hs).symm
    refine ⟨fun hs => (Positions.length_union (hlength hs)).trans ((ihLeft hP.1).length hs), fun hs => ?_⟩
    rw [reach, Positions.marks_union (hlength hs), (ihLeft hP.1).marks hs, (ihRight hP.2).marks hs,
      ← exists_or]
    refine exists_congr fun i => ?_
    rw [← and_or_left, Spans, Spans, ← exists_or]
    simp only [← or_and_right]
    rfl
  | times body min max greedy ih =>
    obtain ⟨set, rfl, rfl⟩ : ∃ set, body = .chars set ∧ max = none := by
      cases body <;> cases max <;> simp_all [RepeatsChars]
    have hset : Reaches (text.size + 1) _ ((Pattern.chars set).reach text) := reaches_chars set
    have hmin := hset.exactly min
    have hmore := hset.upTo text.size
    have hreach : ((Pattern.chars set).times min none greedy).reach text =
        fun s => Positions.upTo ((Pattern.chars set).reach text) text.size
          (Positions.exactly ((Pattern.chars set).reach text) min s) := by
      funext s
      rw [reach, Option.getD_none, Nat.add_sub_cancel_left]
    rw [hreach]
    refine ⟨fun hs => hmore.length (hmin.length hs), fun hs => ?_⟩
    rw [hmore.marks (hmin.length hs)]
    simp only [hmin.marks hs, spans_times]
    constructor
    · rintro ⟨k, ⟨i, hi, hk⟩, more, -, hj⟩
      exact ⟨i, hi, more, steps_add.2 ⟨k, hk, hj⟩⟩
    · rintro ⟨i, hi, more, hsteps⟩
      obtain ⟨k, hk, hj⟩ := steps_add.1 hsteps
      refine ⟨k, ⟨i, hi, hk⟩, more, ?_, hj⟩
      have hlt : i < text.size + 1 := hs ▸ (List.getElem?_eq_some_iff.1 hi).1
      obtain ⟨q, hq, -⟩ := (steps_spans (p := ⟨i, []⟩) rfl).1 hsteps
      obtain ⟨hpos, hle⟩ := pos_of_steps_chars hq
      have hsize := hle (Nat.le_of_lt_succ hlt)
      omega

/-! ## Matching somewhere -/

/-- A pattern matches in a text iff it leads somewhere. -/
theorem matchesIn_iff (hP : P.RepeatsChars) (s : String) :
    P.matchesIn s = true ↔ ∃ i ≤ s.toList.length, ∃ j, P.Spans s.toList.toArray i j := by
  have hall : (List.replicate (s.toList.toArray.size + 1) true).length = s.toList.toArray.size + 1 :=
    List.length_replicate
  unfold matchesIn
  dsimp only
  rw [List.contains_iff_mem, List.mem_iff_getElem?]
  constructor
  · rintro ⟨j, hj⟩
    obtain ⟨i, hi, hij⟩ := ((marks_reach hP).marks hall).1 hj
    have hlt := (List.getElem?_eq_some_iff.1 hi).1
    rw [hall, List.size_toArray] at hlt
    exact ⟨i, Nat.le_of_lt_succ hlt, j, hij⟩
  · rintro ⟨i, hi, j, hij⟩
    refine ⟨j, ((marks_reach hP).marks hall).2 ⟨i, ?_, hij⟩⟩
    rw [Marks, List.getElem?_replicate, if_pos (by rw [List.size_toArray]; omega)]

/-- A match that the search finds is one. -/
theorem leads_of_search {start : Nat} {q : Place} (h : P.search text = some (start, q)) :
    P.Leads text ⟨start, []⟩ q := by
  have hfrom : ∀ count first, P.searchFrom text count first = some (start, q) →
      P.Leads text ⟨start, []⟩ q := by
    intro count
    induction count with
    | zero => exact fun _ h => absurd h (by simp [searchFrom])
    | succ count ih =>
      intro first h
      unfold searchFrom at h
      split at h
      · next r rest hends =>
        obtain ⟨rfl, rfl⟩ := Prod.mk.inj (Option.some.inj h)
        exact leads_of_mem_ends (hends ▸ List.mem_cons_self)
      · exact ih _ h
  exact hfrom _ _ h

/-- The search finds a match iff there is one. -/
theorem search_isSome_iff (hP : P.RepeatsChars) :
    (P.search text).isSome = true ↔ ∃ i ≤ text.size, ∃ j, P.Spans text i j := by
  have hfrom : ∀ count first, first + count = text.size + 1 →
      ((P.searchFrom text count first).isSome = true ↔
        ∃ i, first ≤ i ∧ i ≤ text.size ∧ ∃ j, P.Spans text i j) := by
    intro count
    induction count with
    | zero =>
      intro first hfirst
      refine ⟨fun h => absurd h (by simp [searchFrom]), ?_⟩
      rintro ⟨i, hi, hle, -⟩
      omega
    | succ count ih =>
      intro first hfirst
      unfold searchFrom
      split
      · next r rest hends =>
        have hr : P.Leads text ⟨first, []⟩ r := leads_of_mem_ends (hends ▸ List.mem_cons_self)
        exact ⟨fun _ => ⟨first, Nat.le_refl _, by omega, r.pos, r, hr, rfl⟩, fun _ => rfl⟩
      · next hends =>
        rw [ih (first + 1) (by omega)]
        constructor
        · rintro ⟨i, hi, h⟩
          exact ⟨i, by omega, h⟩
        · rintro ⟨i, hi, hle, j, q, hq, hpos⟩
          refine ⟨i, ?_, hle, j, q, hq, hpos⟩
          by_contra hlt
          obtain rfl : i = first := by omega
          obtain ⟨r, hr, -⟩ := exists_mem_ends hP hq hle
          rw [hends] at hr
          exact absurd hr List.not_mem_nil
  rw [search, hfrom (text.size + 1) 0 (Nat.zero_add _)]
  simp

end Pattern

end AccessControl.Regex
