import AccessControl.Regex.Matching
import Mathlib.Data.List.Basic
/-!
# What a pattern matches

`Pattern.Leads` says between which places of a text a pattern matches, without any order among the ways to
do so.  The search lists the places at which a match can end, the preferred one first, and leaves out every
further way to a position that it has met.

    every place of the list is one a match leads to                     (`leads_of_mem_ends`)
    the list has a place at every position that a match leads to        (`exists_mem_ends`)

The second statement is for patterns in which only single characters are repeated.
-/

namespace AccessControl.Regex

/-- So many steps. -/
def Steps {α : Type} (step : α → α → Prop) : Nat → α → α → Prop
  | 0, a, b => a = b
  | n + 1, a, b => ∃ c, step a c ∧ Steps step n c b

variable {text : Array Char}

namespace Place

variable {p q : Place} {ps : List Place} {step : Place → List Place} {seen : Nat}

/-! ## Characters in a row -/

theorem getElem?_eq_some_iff_drop {i : Nat} {c : Char} :
    text[i]? = some c ↔ text.toList.drop i = c :: text.toList.drop (i + 1) := by
  rw [← Array.getElem?_toList]
  constructor
  · intro h
    obtain ⟨hlt, rfl⟩ := List.getElem?_eq_some_iff.1 h
    exact List.drop_eq_getElem_cons hlt
  · intro h
    rw [← Nat.add_zero i, ← List.getElem?_drop, h]
    rfl

/-- The place behind a literal, where the text goes on with it. -/
theorem afterLiteral?_eq_some_iff {cs : List Char} : p.afterLiteral? text cs = some q ↔
    cs <+: text.toList.drop p.pos ∧ q = { p with pos := p.pos + cs.length } := by
  induction cs generalizing p with
  | nil => simp [afterLiteral?, eq_comm]
  | cons c cs ih =>
    unfold afterLiteral?
    split
    · next hc =>
      rw [ih, getElem?_eq_some_iff_drop.1 hc, List.cons_prefix_cons]
      simp [Nat.add_assoc, Nat.add_comm 1]
    · next hc =>
      refine ⟨fun h => absurd h (by simp), fun ⟨⟨rest, hrest⟩, _⟩ => absurd ?_ hc⟩
      rw [getElem?_eq_some_iff_drop, ← hrest, List.cons_append, ← List.drop_drop, ← hrest]
      rfl

/-! ## Places left out -/

theorem mem_of_mem_keepFirst (h : q ∈ keepFirst seen ps) : q ∈ ps := by
  induction ps generalizing seen with
  | nil => exact h
  | cons p rest ih =>
    unfold keepFirst at h
    split at h
    · exact List.mem_cons_of_mem _ (ih h)
    · rcases List.mem_cons.1 h with rfl | hrest
      · exact List.mem_cons_self
      · exact List.mem_cons_of_mem _ (ih hrest)

/-- A position that was not met before is kept. -/
theorem exists_mem_keepFirst (h : q ∈ ps) (hseen : seen.testBit q.pos = false) :
    ∃ r ∈ keepFirst seen ps, r.pos = q.pos := by
  induction ps generalizing seen with
  | nil => exact absurd h List.not_mem_nil
  | cons p rest ih =>
    unfold keepFirst
    split
    · next hp =>
      rcases List.mem_cons.1 h with rfl | hrest
      · rw [hseen] at hp
        exact absurd hp Bool.false_ne_true
      · exact ih hrest hseen
    · by_cases hpos : q.pos = p.pos
      · exact ⟨p, List.mem_cons_self, hpos.symm⟩
      · have hrest : q ∈ rest := (List.mem_cons.1 h).resolve_left fun heq => hpos (by rw [heq])
        have hbit : (seen ||| 1 <<< p.pos).testBit q.pos = false := by
          rw [Nat.testBit_or, hseen, Nat.one_shiftLeft, Nat.testBit_two_pow_of_ne (Ne.symm hpos)]
          rfl
        obtain ⟨r, hr, heq⟩ := ih hrest hbit
        exact ⟨r, List.mem_cons_of_mem _ hr, heq⟩

theorem exists_keepFirst (h : q ∈ ps) {i : Nat} (hpos : q.pos = i) :
    ∃ r ∈ keepFirst 0 ps, r.pos = i := by
  obtain ⟨r, hr, heq⟩ := exists_mem_keepFirst h (Nat.zero_testBit _)
  exact ⟨r, hr, heq.trans hpos⟩

/-! ## Repetitions -/

/-- The place itself stands before or behind those reached from it. -/
theorem mem_withOwn {greedy : Bool} :
    q ∈ (if greedy then ps ++ [p] else p :: ps) ↔ q = p ∨ q ∈ ps := by
  split
  · rw [List.mem_append, List.mem_singleton, or_comm]
  · exact List.mem_cons

section

variable {R : Place → Place → Prop} (hstep : ∀ p q, q ∈ step p → R p q)

include hstep

theorem steps_of_mem_exactly {n : Nat} (h : q ∈ exactly step n ps) : ∃ p ∈ ps, Steps R n p q := by
  induction n generalizing ps with
  | zero => exact ⟨q, h, rfl⟩
  | succ n ih =>
    obtain ⟨r, hr, hsteps⟩ := ih h
    obtain ⟨p, hp, hpr⟩ := List.mem_flatMap.1 (mem_of_mem_keepFirst hr)
    exact ⟨p, hp, r, hstep p r hpr, hsteps⟩

omit hstep in
theorem mem_through {go : Nat → Place → List Place × Nat} (h : q ∈ (through go seen ps).1) :
    ∃ p ∈ ps, ∃ seen, q ∈ (go seen p).1 := by
  unfold through at h
  refine List.foldlRecOn ps _ (b := ([], seen))
    (motive := fun acc : List Place × Nat => q ∈ acc.1 → ∃ p ∈ ps, ∃ seen, q ∈ (go seen p).1)
    (fun h => absurd h List.not_mem_nil) ?_ h
  rintro ⟨found, seen⟩ ih p hp hq
  rcases List.mem_append.1 hq with hold | hnew
  · exact ih hold
  · exact ⟨p, hp, seen, hnew⟩

theorem steps_of_mem_upTo {greedy : Bool} {width n taken : Nat}
    (h : q ∈ (upTo step greedy width n taken seen p).1) : ∃ k ≤ n, Steps R k p q := by
  induction n generalizing taken seen p q with
  | zero =>
    rw [upTo] at h
    exact ⟨0, Nat.le_refl _, (List.mem_singleton.1 h).symm⟩
  | succ n ih =>
    have hcases : q = p ∨ ∃ r ∈ step p, ∃ seen, q ∈ (upTo step greedy width n (taken + 1) seen r).1 := by
      unfold upTo at h
      dsimp only at h
      split at h
      · exact absurd h List.not_mem_nil
      · exact (mem_withOwn.1 h).imp_right mem_through
    rcases hcases with rfl | ⟨r, hr, seen, hq⟩
    · exact ⟨0, Nat.zero_le _, rfl⟩
    · obtain ⟨k, hk, hsteps⟩ := ih hq
      exact ⟨k + 1, Nat.succ_le_succ hk, r, hstep p r hr, hsteps⟩

theorem steps_of_mem_anyNumber {greedy : Bool} {fuel : Nat}
    (h : q ∈ (anyNumber step greedy fuel seen p).1) : ∃ k, Steps R k p q := by
  induction fuel generalizing seen p q with
  | zero =>
    rw [anyNumber] at h
    exact ⟨0, (List.mem_singleton.1 h).symm⟩
  | succ fuel ih =>
    have hcases : q = p ∨ ∃ r ∈ step p, q = r ∨ ∃ seen, q ∈ (anyNumber step greedy fuel seen r).1 := by
      have hgo : ∀ {seen : Nat} {r : Place}, q ∈ (if r.pos = p.pos then ([r], seen)
          else anyNumber step greedy fuel seen r).1 →
            q = r ∨ ∃ seen, q ∈ (anyNumber step greedy fuel seen r).1 := by
        intro seen r hq
        split at hq
        · exact Or.inl (List.mem_singleton.1 hq)
        · exact Or.inr ⟨seen, hq⟩
      unfold anyNumber at h
      dsimp only at h
      split at h
      · exact absurd h List.not_mem_nil
      · refine (mem_withOwn.1 h).imp_right fun hfurther => ?_
        obtain ⟨r, hr, seen, hq⟩ := mem_through hfurther
        exact ⟨r, hr, hgo hq⟩
    rcases hcases with rfl | ⟨r, hr, rfl | ⟨seen, hq⟩⟩
    · exact ⟨0, rfl⟩
    · exact ⟨1, q, hstep p q hr, rfl⟩
    · obtain ⟨k, hsteps⟩ := ih hq
      exact ⟨k + 1, r, hstep p r hr, hsteps⟩

end

end Place

namespace Pattern

/-- A match of a pattern from a place to a place. -/
def Leads (text : Array Char) : Pattern → Place → Place → Prop
  | .empty, p, q => q = p
  | .literal cs, p, q => cs <+: text.toList.drop p.pos ∧ q = { p with pos := p.pos + cs.length }
  | .chars set, p, q =>
    ∃ c, text[p.pos]? = some c ∧ set.contains c = true ∧ q = { p with pos := p.pos + 1 }
  | .look l, p, q => l.holds text p.pos = true ∧ q = p
  | .group index body, p, q =>
    ∃ r, Leads text body p r ∧ q = { r with groups := (index, p.pos, r.pos) :: r.groups }
  | .seq first second, p, q => ∃ r, Leads text first p r ∧ Leads text second r q
  | .alt left right, p, q => Leads text left p q ∨ Leads text right p q
  | .times body min max _, p, q =>
    ∃ more, (∀ n ∈ max, more ≤ n - min) ∧ Steps (Leads text body) (min + more) p q

theorem steps_add {α : Type} {step : α → α → Prop} {m n : Nat} {a c : α} :
    Steps step (m + n) a c ↔ ∃ b, Steps step m a b ∧ Steps step n b c := by
  induction m generalizing a with
  | zero => simp [Steps]
  | succ m ih =>
    rw [Nat.succ_add]
    simp only [Steps, ih]
    constructor
    · rintro ⟨r, hr, b, hb, hc⟩
      exact ⟨b, ⟨r, hr, hb⟩, hc⟩
    · rintro ⟨b, ⟨r, hr, hb⟩, hc⟩
      exact ⟨r, hr, b, hb, hc⟩

variable {P : Pattern} {p q : Place}

/-- Every place at which the search ends is one that a match leads to. -/
theorem leads_of_mem_ends (h : q ∈ P.ends text p) : P.Leads text p q := by
  induction P generalizing p q with
  | empty => exact List.mem_singleton.1 h
  | literal cs => exact Place.afterLiteral?_eq_some_iff.1 (Option.mem_toList.1 h)
  | chars set =>
    unfold ends at h
    split at h
    · next c hc =>
      split at h
      · next hset => exact ⟨c, hc, hset, List.mem_singleton.1 h⟩
      · exact absurd h List.not_mem_nil
    · exact absurd h List.not_mem_nil
  | look l =>
    unfold ends at h
    split at h
    · next hl => exact ⟨hl, List.mem_singleton.1 h⟩
    · exact absurd h List.not_mem_nil
  | group index body ih =>
    obtain ⟨r, hr, rfl⟩ := List.mem_map.1 h
    exact ⟨r, ih hr, rfl⟩
  | seq first second ihFirst ihSecond =>
    obtain ⟨r, hr, hq⟩ := List.mem_flatMap.1 (Place.mem_of_mem_keepFirst h)
    exact ⟨r, ihFirst hr, ihSecond hq⟩
  | alt left right ihLeft ihRight =>
    rcases List.mem_append.1 (Place.mem_of_mem_keepFirst h) with hleft | hright
    · exact Or.inl (ihLeft hleft)
    · exact Or.inr (ihRight hright)
  | times body min max greedy ih =>
    obtain ⟨r, hr, hq⟩ := List.mem_flatMap.1 (Place.mem_of_mem_keepFirst h)
    obtain ⟨p', hp', hmin⟩ := Place.steps_of_mem_exactly (fun _ _ => ih) hr
    rw [List.mem_singleton.1 hp'] at hmin
    cases max with
    | none =>
      obtain ⟨k, hk⟩ := Place.steps_of_mem_anyNumber (fun _ _ => ih) hq
      exact ⟨k, by simp, steps_add.2 ⟨r, hmin, hk⟩⟩
    | some n =>
      obtain ⟨k, hle, hk⟩ := Place.steps_of_mem_upTo (fun _ _ => ih) hq
      exact ⟨k, by simpa using hle, steps_add.2 ⟨r, hmin, hk⟩⟩

/-! ## Places that are found -/

theorem exists_steps {R : Place → Place → Prop} (hR : ∀ {p q p' : Place}, R p q → p'.pos = p.pos →
    ∃ q', R p' q' ∧ q'.pos = q.pos) {n : Nat} {p' : Place} (h : Steps R n p q) (hpos : p'.pos = p.pos) :
    ∃ q', Steps R n p' q' ∧ q'.pos = q.pos := by
  induction n generalizing p p' with
  | zero => exact ⟨p', rfl, by rw [hpos, show p = q from h]⟩
  | succ n ih =>
    obtain ⟨r, hr, hsteps⟩ := h
    obtain ⟨r', hr', hrpos⟩ := hR hr hpos
    obtain ⟨q', hq', hqpos⟩ := ih hsteps hrpos
    exact ⟨q', ⟨r', hr', hq'⟩, hqpos⟩

/-- Which groups were matched before makes no difference. -/
theorem Leads.exists_leads {p' : Place} (h : P.Leads text p q) (hpos : p'.pos = p.pos) :
    ∃ q', P.Leads text p' q' ∧ q'.pos = q.pos := by
  induction P generalizing p q p' with
  | empty => exact ⟨p', rfl, by rw [hpos, show q = p from h]⟩
  | literal cs =>
    obtain ⟨hcs, rfl⟩ := h
    exact ⟨_, ⟨by rwa [hpos], rfl⟩, by simp [hpos]⟩
  | chars set =>
    obtain ⟨c, hc, hset, rfl⟩ := h
    exact ⟨_, ⟨c, by rwa [hpos], hset, rfl⟩, by simp [hpos]⟩
  | look l =>
    obtain ⟨hl, rfl⟩ := h
    exact ⟨p', ⟨by rwa [hpos], rfl⟩, hpos⟩
  | group index body ih =>
    obtain ⟨r, hr, rfl⟩ := h
    obtain ⟨r', hr', hrpos⟩ := ih hr hpos
    exact ⟨_, ⟨r', hr', rfl⟩, hrpos⟩
  | seq first second ihFirst ihSecond =>
    obtain ⟨r, hr, hq⟩ := h
    obtain ⟨r', hr', hrpos⟩ := ihFirst hr hpos
    obtain ⟨q', hq', hqpos⟩ := ihSecond hq hrpos
    exact ⟨q', ⟨r', hr', hq'⟩, hqpos⟩
  | alt left right ihLeft ihRight =>
    rcases h with hleft | hright
    · obtain ⟨q', hq', hqpos⟩ := ihLeft hleft hpos
      exact ⟨q', Or.inl hq', hqpos⟩
    · obtain ⟨q', hq', hqpos⟩ := ihRight hright hpos
      exact ⟨q', Or.inr hq', hqpos⟩
  | times body min max greedy ih =>
    obtain ⟨more, hmore, hsteps⟩ := h
    obtain ⟨q', hq', hqpos⟩ := exists_steps ih hsteps hpos
    exact ⟨q', ⟨more, hmore, hq'⟩, hqpos⟩

/-- The patterns in which only single characters are repeated, any number of times. -/
def RepeatsChars : Pattern → Prop
  | .group _ body => body.RepeatsChars
  | .seq a b | .alt a b => a.RepeatsChars ∧ b.RepeatsChars
  | .times (.chars _) _ none _ => True
  | .times _ _ _ _ => False
  | _ => True

section

variable {set : CharSet} {n : Nat}

/-- A character leads on in one way. -/
theorem Leads.ends_chars (h : (Pattern.chars set).Leads text p q) :
    (Pattern.chars set).ends text p = [q] := by
  obtain ⟨c, hc, hset, rfl⟩ := h
  rw [ends, hc]
  exact if_pos hset

theorem pos_of_steps_chars (h : Steps ((Pattern.chars set).Leads text) n p q) :
    q.pos = p.pos + n ∧ (p.pos ≤ text.size → q.pos ≤ text.size) := by
  induction n generalizing p with
  | zero =>
    rw [show p = q from h]
    exact ⟨rfl, id⟩
  | succ n ih =>
    obtain ⟨r, ⟨c, hc, -, rfl⟩, hsteps⟩ := h
    obtain ⟨heq, hle⟩ := ih hsteps
    have hlt : p.pos < text.size := by
      by_contra hge
      rw [Array.getElem?_eq_none (by omega)] at hc
      exact absurd hc (by simp)
    exact ⟨by rw [heq]; dsimp only; omega, fun _ => hle (by dsimp only; omega)⟩

theorem mem_exactly_chars (h : Steps ((Pattern.chars set).Leads text) n p q) :
    q ∈ Place.exactly ((Pattern.chars set).ends text) n [p] := by
  induction n generalizing p with
  | zero => exact List.mem_singleton.2 (Eq.symm h)
  | succ n ih =>
    obtain ⟨r, hr, hsteps⟩ := h
    have hfirst : Place.keepFirst 0 ([p].flatMap ((Pattern.chars set).ends text)) = [r] := by
      rw [List.flatMap_singleton, hr.ends_chars, Place.keepFirst, if_neg (by simp)]
      rfl
    rw [Place.exactly, hfirst]
    exact ih hsteps

/-- No position ahead was met when the repetition gets there, since it only moves on. -/
theorem mem_anyNumber_chars {greedy : Bool} {fuel seen : Nat}
    (h : Steps ((Pattern.chars set).Leads text) n p q) (hfuel : n < fuel)
    (hseen : ∀ i, p.pos ≤ i → seen.testBit i = false) :
    q ∈ (Place.anyNumber ((Pattern.chars set).ends text) greedy fuel seen p).1 := by
  induction n generalizing p fuel seen with
  | zero =>
    obtain ⟨fuel, rfl⟩ : ∃ k, fuel = k + 1 := ⟨fuel - 1, by omega⟩
    unfold Place.anyNumber
    rw [if_neg (by simp [hseen p.pos (Nat.le_refl _)])]
    exact Place.mem_withOwn.2 (Or.inl (Eq.symm h))
  | succ n ih =>
    obtain ⟨fuel, rfl⟩ : ∃ k, fuel = k + 1 := ⟨fuel - 1, by omega⟩
    obtain ⟨r, hr, hsteps⟩ := h
    have hr' := hr
    obtain ⟨c, -, -, rfl⟩ := hr'
    unfold Place.anyNumber
    rw [if_neg (by simp [hseen p.pos (Nat.le_refl _)]), hr.ends_chars]
    refine Place.mem_withOwn.2 (Or.inr ?_)
    have hahead : ∀ i, p.pos + 1 ≤ i → (seen ||| 1 <<< p.pos).testBit i = false := by
      intro i hi
      rw [Nat.testBit_or, hseen i (by omega), Nat.one_shiftLeft,
        Nat.testBit_two_pow_of_ne (by omega)]
      rfl
    have hnext : q ∈ (Place.anyNumber ((Pattern.chars set).ends text) greedy fuel
        (seen ||| 1 <<< p.pos) { p with pos := p.pos + 1 }).1 := ih hsteps (by omega) hahead
    simpa [Place.through] using hnext

end

/-- A match does not run over the end of the text. -/
theorem Leads.pos_le (h : P.Leads text p q) (hp : p.pos ≤ text.size) : q.pos ≤ text.size := by
  induction P generalizing p q with
  | empty => rwa [show q = p from h]
  | literal cs =>
    obtain ⟨hcs, rfl⟩ := h
    have hle : cs.length ≤ text.size - p.pos := by simpa using hcs.length_le
    dsimp only
    omega
  | chars set => exact (pos_of_steps_chars (n := 1) ⟨q, h, rfl⟩).2 hp
  | look l => rwa [show q = p from h.2]
  | group index body ih =>
    obtain ⟨r, hr, rfl⟩ := h
    exact ih (q := r) hr hp
  | seq first second ihFirst ihSecond =>
    obtain ⟨r, hr, hq⟩ := h
    exact ihSecond hq (ihFirst hr hp)
  | alt left right ihLeft ihRight => exact h.elim (fun h => ihLeft h hp) fun h => ihRight h hp
  | times body min max greedy ih =>
    obtain ⟨more, -, hsteps⟩ := h
    generalize min + more = n at hsteps
    induction n generalizing p with
    | zero => rwa [show q = p from Eq.symm hsteps]
    | succ n ihn =>
      obtain ⟨r, hr, hsteps⟩ := hsteps
      exact ihn (ih hr hp) hsteps

/-- Where a match leads to, the search has a place. -/
theorem exists_mem_ends (hP : P.RepeatsChars) (h : P.Leads text p q) (hp : p.pos ≤ text.size) :
    ∃ r ∈ P.ends text p, r.pos = q.pos := by
  induction P generalizing p q with
  | empty => exact ⟨p, List.mem_singleton_self p, by rw [show q = p from h]⟩
  | literal cs => exact ⟨q, Option.mem_toList.2 (Place.afterLiteral?_eq_some_iff.2 h), rfl⟩
  | chars set => exact ⟨q, by rw [h.ends_chars]; exact List.mem_singleton_self q, rfl⟩
  | look l =>
    obtain ⟨hl, rfl⟩ := h
    exact ⟨q, by rw [ends, if_pos hl]; exact List.mem_singleton_self q, rfl⟩
  | group index body ih =>
    obtain ⟨r, hr, rfl⟩ := h
    obtain ⟨r', hr', hpos⟩ := ih hP hr hp
    exact ⟨_, List.mem_map.2 ⟨r', hr', rfl⟩, hpos⟩
  | seq first second ihFirst ihSecond =>
    obtain ⟨r, hr, hq⟩ := h
    obtain ⟨r', hr', hrpos⟩ := ihFirst hP.1 hr hp
    obtain ⟨q', hq', hqpos⟩ := hq.exists_leads hrpos
    obtain ⟨q'', hq'', hpos⟩ := ihSecond hP.2 hq' (by rw [hrpos]; exact hr.pos_le hp)
    exact Place.exists_keepFirst (List.mem_flatMap.2 ⟨r', hr', hq''⟩) (hpos.trans hqpos)
  | alt left right ihLeft ihRight =>
    rcases h with hleft | hright
    · obtain ⟨r, hr, hpos⟩ := ihLeft hP.1 hleft hp
      exact Place.exists_keepFirst (List.mem_append_left _ hr) hpos
    · obtain ⟨r, hr, hpos⟩ := ihRight hP.2 hright hp
      exact Place.exists_keepFirst (List.mem_append_right _ hr) hpos
  | times body min max greedy ih =>
    obtain ⟨more, -, hsteps⟩ := h
    obtain ⟨set, rfl, rfl⟩ : ∃ set, body = .chars set ∧ max = none := by
      cases body <;> cases max <;> simp_all [RepeatsChars]
    obtain ⟨r, hmin, hmore⟩ := steps_add.1 hsteps
    have hfuel : more < text.size + 1 := by
      have hr := (pos_of_steps_chars hmin).2 hp
      have hq := pos_of_steps_chars hmore
      have hle := hq.2 hr
      omega
    have hends : q ∈ (Place.anyNumber ((Pattern.chars set).ends text) greedy (text.size + 1) 0 r).1 :=
      mem_anyNumber_chars hmore hfuel fun i _ => Nat.zero_testBit i
    exact Place.exists_keepFirst (List.mem_flatMap.2 ⟨r, mem_exactly_chars hmin, hends⟩) rfl

end Pattern

end AccessControl.Regex
