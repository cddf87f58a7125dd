import AccessControl.Expr.Cursor
import AccessControl.Proofs.Expr.Parsing
/-!
# A cursor follows the parser

What a cursor reads from a place on is what the parser reads from the tokens behind that place, and the cursor
then stands where those left by the parser start.  It stands past the end only before it goes back, so every
fault is at a token or at the end of the text.  A walk that reads an expression passes a token, and the tokens
ahead bound the budget it needs; ten for every token are enough.

    a walk with enough budget reads what the parser reads                (`walks`)
    ofTokens ts textEnd = Expr.ofTokens ts textEnd                       (`ofTokens_eq`)
-/

namespace AccessControl

namespace Cursor

open Grammar

variable {ts : List PlacedToken} {textEnd low place : Nat} {α : Type}

/-! ## Places -/

/-- Behind a place up to the last token is the end, or a token and the place behind it. -/
theorem end_or_token (textEnd : Nat) (h : place ≤ ts.length) :
    (ts.drop place = [] ∧ tokenAt ts place = none ∧ offsetAt ts textEnd place = textEnd) ∨
      ∃ t, ts.drop place = t :: ts.drop (place + 1) ∧ tokenAt ts place = some t.token ∧
        offsetAt ts textEnd place = t.offset ∧ place + 1 ≤ ts.length := by
  rcases Nat.lt_or_eq_of_le h with hlt | rfl
  · refine Or.inr ⟨ts[place], List.drop_eq_getElem_cons hlt, ?_, ?_, hlt⟩
    · rw [tokenAt, List.getElem?_eq_getElem hlt, Option.map_some]
    · rw [offsetAt, List.getElem?_eq_getElem hlt, Option.map_some, Option.getD_some]
  · refine Or.inl ⟨List.drop_length, ?_, ?_⟩
    · rw [tokenAt, List.getElem?_eq_none (Nat.le_refl _), Option.map_none]
    · rw [offsetAt, List.getElem?_eq_none (Nat.le_refl _), Option.map_none, Option.getD_none]

theorem drop_of_tokenAt {t : Token} (h : tokenAt ts place = some t) :
    ∃ offset, ts.drop place = ⟨t, offset⟩ :: ts.drop (place + 1) ∧ place + 1 ≤ ts.length := by
  have hlt := lt_of_tokenAt h
  rcases end_or_token 0 (Nat.le_of_lt hlt) with ⟨-, hnone, -⟩ | ⟨⟨found, offset⟩, hdrop, hfound, -, -⟩
  · rw [h] at hnone
    simp at hnone
  · obtain rfl : t = found := Option.some.inj (h.symm.trans hfound)
    exact ⟨offset, hdrop, hlt⟩

theorem tokenAt_of_drop {t : PlacedToken} {rest : List PlacedToken} (h : ts.drop place = t :: rest) :
    tokenAt ts place = some t.token := by
  rw [tokenAt, ← List.head?_drop, h]
  rfl

/-- What a walk reads is what the parser reads.  The cursor stands behind `low` at the tokens that the parser
leaves, or both report one fault, at a token or at the end. -/
inductive ReadsAlike (ts : List PlacedToken) (textEnd low : Nat) : Walked α → Expr.Parsed α → Prop where
  | read (a : α) (place : Nat) (hlow : low ≤ place) (hend : place ≤ ts.length) :
    ReadsAlike ts textEnd low (some (.ok (a, place))) (.ok (a, ts.drop place))
  | fault (place : Nat) (fault : SyntaxFault) (hend : place ≤ ts.length) :
    ReadsAlike ts textEnd low (some (.error (.malformed (offsetAt ts textEnd place) fault)))
      (.error (.malformed (offsetAt ts textEnd place) fault))

theorem ReadsAlike.mono {w : Walked α} {p : Expr.Parsed α} (h : ReadsAlike ts textEnd low w p) {lower : Nat}
    (hle : lower ≤ low) : ReadsAlike ts textEnd lower w p := by
  cases h with
  | read a place hlow hend => exact .read a place (Nat.le_trans hle hlow) hend
  | fault place fault hend => exact .fault place fault hend

theorem readsAlike_read (a : α) (hlow : low ≤ place) (hend : place ≤ ts.length) {rest : List PlacedToken}
    (hrest : ts.drop place = rest) : ReadsAlike ts textEnd low (some (.ok (a, place))) (.ok (a, rest)) := by
  rw [← hrest]
  exact .read a place hlow hend

theorem readsAlike_fail (h : place ≤ ts.length) (fault : SyntaxFault) :
    ReadsAlike (α := α) ts textEnd low (failAt ts textEnd place fault)
      (Expr.fail textEnd (ts.drop place) fault) := by
  have hsame : ((ts.drop place).head?.map (·.offset)).getD textEnd = offsetAt ts textEnd place := by
    rw [offsetAt, List.head?_drop]
  rw [failAt, Expr.fail, hsame]
  exact .fault place fault h

/-- A symbol that must come next is passed, or its absence is the fault. -/
theorem expect_cases (textEnd : Nat) (s : Symbol) (h : place ≤ ts.length) :
    (expect ts textEnd s place = some (.ok ((), place + 1)) ∧
      Expr.expect textEnd s (ts.drop place) = .ok (ts.drop (place + 1)) ∧ place + 1 ≤ ts.length) ∨
    ∃ fault, expect ts textEnd s place = some (.error (.malformed (offsetAt ts textEnd place) fault)) ∧
      Expr.expect textEnd s (ts.drop place) = .error (.malformed (offsetAt ts textEnd place) fault) := by
  rcases end_or_token textEnd h with ⟨hdrop, htoken, hoffset⟩ | ⟨⟨token, offset⟩, hdrop, htoken, hoffset, hnext⟩
  · refine Or.inr ⟨.expectedToken s.spelling none, ?_, ?_⟩
    · rw [expect, htoken]
      rfl
    · rw [hdrop, hoffset]
      rfl
  · rw [expect, htoken, hdrop]
    dsimp only at hoffset ⊢
    by_cases hsymbol : token = .symbol s
    · subst hsymbol
      exact Or.inl ⟨by simp, by simp [Expr.expect], hnext⟩
    · refine Or.inr ⟨.expectedToken s.spelling (some token.spelling), ?_⟩
      cases token with
      | symbol found =>
        have hne : ¬ found = s := fun heq => hsymbol (congrArg Token.symbol heq)
        simp [Expr.expect, failAt, hne, hoffset, Token.spelling]
      | _ => simp [Expr.expect, failAt, hoffset]

theorem readsAlike_attributes (base : Expr) (h : place ≤ ts.length) :
    ReadsAlike ts textEnd place (attributes ts textEnd base place)
      (Expr.attributes textEnd base (ts.drop place)) := by
  fun_induction attributes ts textEnd base place with
  | case1 base place hdot name hname ih =>
    obtain ⟨offset, hdrop, -⟩ := drop_of_tokenAt hdot
    obtain ⟨offset', hdrop', hnext⟩ := drop_of_tokenAt hname
    rw [hdrop, hdrop', Expr.attributes]
    exact (ih hnext).mono (Nat.le_add_right _ _)
  | case2 base place hdot hother =>
    obtain ⟨offset, hdrop, hnext⟩ := drop_of_tokenAt hdot
    rw [hdrop, Expr.attributes]
    · exact readsAlike_fail hnext _
    · exact fun name offset' rest heq => hother name (tokenAt_of_drop heq)
  | case3 base place hother =>
    rw [Expr.attributes]
    · exact .read base place (Nat.le_refl _) h
    · exact fun offset name offset' rest heq => hother (tokenAt_of_drop heq)
    · exact fun offset rest heq => hother (tokenAt_of_drop heq)

/-! ## Walks -/

/-- With a budget for the tokens ahead of a place, a walk from there follows the parser. -/
structure Walks (ts : List PlacedToken) (textEnd n : Nat) : Prop where
  phrase : ∀ level place, place ≤ ts.length → 10 * (ts.length - place) + rank level + 2 ≤ n →
    ReadsAlike ts textEnd (place + 1) (parse ts textEnd n level place)
      (Expr.parse textEnd n level (ts.drop place))
  links : ∀ level left place, level.chains = true → place ≤ ts.length → 10 * (ts.length - place) + 1 ≤ n →
    ReadsAlike ts textEnd place (chain ts textEnd n level left place)
      (Expr.chain textEnd n level left (ts.drop place))
  primary : ∀ t place, ts.drop place = t :: ts.drop (place + 1) → place + 1 ≤ ts.length →
    10 * (ts.length - place) + 1 ≤ n → ReadsAlike ts textEnd (place + 1) (primary ts textEnd n place)
      (Expr.primary textEnd n t (ts.drop (place + 1)))
  arguments : ∀ place, place ≤ ts.length → 10 * (ts.length - place) + 9 ≤ n →
    ReadsAlike ts textEnd place (list ts textEnd n place) (Expr.list textEnd n (ts.drop place))
  items : ∀ place, place ≤ ts.length → 10 * (ts.length - place) + 8 ≤ n →
    ReadsAlike ts textEnd place (items ts textEnd n place) (Expr.items textEnd n (ts.drop place))

/-- A walk needs a budget. -/
theorem walks_zero : Walks ts textEnd 0 where
  phrase _ _ _ hn := absurd hn (by omega)
  links _ _ _ _ _ hn := absurd hn (by omega)
  primary _ _ _ _ hn := absurd hn (by omega)
  arguments _ _ hn := absurd hn (by omega)
  items _ _ hn := absurd hn (by omega)

namespace Walks

variable {n : Nat}

theorem parse_of_chains {level : Level} (hchains : level.chains = true) (place : Nat) :
    Cursor.parse ts textEnd (n + 1) level place =
      (Cursor.parse ts textEnd n level.next place).andThen (chain ts textEnd n level) := by
  cases level <;> first | rfl | simp [Level.chains] at hchains

theorem chain_phrase (h : Walks ts textEnd n) {level : Level} (hchains : level.chains = true)
    (hplace : place ≤ ts.length) (hn : 10 * (ts.length - place) + rank level + 2 ≤ n + 1) :
    ReadsAlike ts textEnd (place + 1) (Cursor.parse ts textEnd (n + 1) level place)
      (Expr.parse textEnd (n + 1) level (ts.drop place)) := by
  have hrank := rank_next hchains
  have hfirst := h.phrase level.next place hplace (by omega)
  rw [parse_of_chains hchains, Expr.parse_of_chains hchains]
  generalize Cursor.parse ts textEnd n level.next place = w at hfirst ⊢
  generalize Expr.parse textEnd n level.next (ts.drop place) = p at hfirst ⊢
  cases hfirst with
  | fault behind fault hend => exact .fault behind fault hend
  | read left behind hlow hend => exact (h.links level left behind hchains hend (by omega)).mono hlow

theorem comparison (h : Walks ts textEnd n) (hplace : place ≤ ts.length)
    (hn : 10 * (ts.length - place) + rank .comparison + 2 ≤ n + 1) :
    ReadsAlike ts textEnd (place + 1) (Cursor.parse ts textEnd (n + 1) .comparison place)
      (Expr.parse textEnd (n + 1) .comparison (ts.drop place)) := by
  have hrank : rank .comparison = 3 := rfl
  have hsum : rank .sum = 2 := rfl
  have hleft := h.phrase .sum place hplace (by omega)
  rw [Cursor.parse, Expr.parse]
  generalize Cursor.parse ts textEnd n .sum place = w at hleft ⊢
  generalize Expr.parse textEnd n .sum (ts.drop place) = p at hleft ⊢
  cases hleft with
  | fault behind fault hend => exact .fault behind fault hend
  | read left behind hlow hend =>
    dsimp only [Walked.andThen]
    rcases end_or_token textEnd hend with ⟨hdrop, htoken, -⟩ | ⟨t, hdrop, htoken, -, hnext⟩
    · rw [htoken, hdrop]
      exact readsAlike_read left hlow hend hdrop
    · rw [htoken, hdrop]
      dsimp only
      have hright := h.phrase .sum (behind + 1) hnext (by omega)
      cases hfound : t.token with
      | isIn =>
        dsimp only
        rcases expect_cases textEnd .leftParen hnext with ⟨hcursor, hparser, hopen⟩ | ⟨fault, hcursor, hparser⟩
        · have hitems := h.arguments (behind + 1 + 1) hopen (by omega)
          rw [hcursor, hparser]
          dsimp only
          generalize Cursor.list ts textEnd n (behind + 1 + 1) = w at hitems ⊢
          generalize Expr.list textEnd n (ts.drop (behind + 1 + 1)) = p at hitems ⊢
          cases hitems with
          | fault behind fault hend => exact .fault behind fault hend
          | read items last hlast hend => exact .read (Expr.isIn left items) last (by omega) hend
        · rw [hcursor, hparser]
          exact .fault (behind + 1) fault hnext
      | _ =>
        dsimp only [Option.bind_some]
        generalize comparisonOp? _ = op?
        cases op? with
        | none => exact readsAlike_read left hlow hend hdrop
        | some op =>
          dsimp only
          generalize Cursor.parse ts textEnd n .sum (behind + 1) = w at hright ⊢
          generalize Expr.parse textEnd n .sum (ts.drop (behind + 1)) = p at hright ⊢
          cases hright with
          | fault behind fault hend => exact .fault behind fault hend
          | read right last hlast hend => exact .read (Expr.binary op left right) last (by omega) hend

theorem operand (h : Walks ts textEnd n) (hplace : place ≤ ts.length)
    (hn : 10 * (ts.length - place) + rank .operand + 2 ≤ n + 1) :
    ReadsAlike ts textEnd (place + 1) (Cursor.parse ts textEnd (n + 1) .operand place)
      (Expr.parse textEnd (n + 1) .operand (ts.drop place)) := by
  have hrank : rank .operand = 0 := rfl
  rcases end_or_token textEnd hplace with ⟨hdrop, htoken, -⟩ | ⟨t, hdrop, htoken, -, hnext⟩
  · obtain ⟨m, rfl⟩ : ∃ m, n = m + 1 := ⟨n - 1, by omega⟩
    have hfail : ReadsAlike (α := Expr) ts textEnd (place + 1) (failAt ts textEnd place .unexpectedEnd)
        (Expr.fail textEnd (ts.drop place) .unexpectedEnd) := readsAlike_fail hplace _
    rw [Cursor.parse, htoken, Cursor.primary, htoken, hdrop]
    rwa [hdrop] at hfail
  · rw [Cursor.parse, htoken, hdrop, Expr.parse]
    dsimp only [Option.bind_some]
    cases unaryOp? t.token with
    | some op =>
      have hoperand := h.phrase .operand (place + 1) hnext (by omega)
      dsimp only
      generalize Cursor.parse ts textEnd n .operand (place + 1) = w at hoperand ⊢
      generalize Expr.parse textEnd n .operand (ts.drop (place + 1)) = p at hoperand ⊢
      cases hoperand with
      | fault behind fault hend => exact .fault behind fault hend
      | read e behind hlow hend => exact .read (Expr.unary op e) behind (by omega) hend
    | none =>
      have hbase := h.primary t place hdrop hnext (by omega)
      dsimp only
      generalize Cursor.primary ts textEnd n place = w at hbase ⊢
      generalize Expr.primary textEnd n t (ts.drop (place + 1)) = p at hbase ⊢
      cases hbase with
      | fault behind fault hend => exact .fault behind fault hend
      | read base behind hlow hend => exact (readsAlike_attributes base hend).mono hlow

theorem links_succ (h : Walks ts textEnd n) {level : Level} (hchains : level.chains = true) (left : Expr)
    (hplace : place ≤ ts.length) (hn : 10 * (ts.length - place) + 1 ≤ n + 1) :
    ReadsAlike ts textEnd place (Cursor.chain ts textEnd (n + 1) level left place)
      (Expr.chain textEnd (n + 1) level left (ts.drop place)) := by
  have hrank : rank level.next ≤ 4 := by cases level <;> decide
  rcases end_or_token textEnd hplace with ⟨hdrop, htoken, -⟩ | ⟨t, hdrop, htoken, -, hnext⟩
  · rw [Cursor.chain, htoken, hdrop, Expr.chain]
    exact readsAlike_read left (Nat.le_refl _) hplace hdrop
  · rw [Cursor.chain, htoken, hdrop, Expr.chain]
    dsimp only [Option.bind_some]
    cases level.chainOp? t.token with
    | none => exact readsAlike_read left (Nat.le_refl _) hplace hdrop
    | some op =>
      have hright := h.phrase level.next (place + 1) hnext (by omega)
      dsimp only
      generalize Cursor.parse ts textEnd n level.next (place + 1) = w at hright ⊢
      generalize Expr.parse textEnd n level.next (ts.drop (place + 1)) = p at hright ⊢
      cases hright with
      | fault behind fault hend => exact .fault behind fault hend
      | read right behind hlow hend =>
        exact (h.links level (.binary op left right) behind hchains hend (by omega)).mono (by omega)

theorem primary_succ (h : Walks ts textEnd n) {t : PlacedToken} (hdrop : ts.drop place = t :: ts.drop (place + 1))
    (hnext : place + 1 ≤ ts.length) (hn : 10 * (ts.length - place) + 1 ≤ n + 1) :
    ReadsAlike ts textEnd (place + 1) (Cursor.primary ts textEnd (n + 1) place)
      (Expr.primary textEnd (n + 1) t (ts.drop (place + 1))) := by
  have hfail : ∀ fault, ReadsAlike (α := Expr) ts textEnd (place + 1) (failAt ts textEnd place fault)
      (Expr.fail textEnd (t :: ts.drop (place + 1)) fault) := by
    rw [← hdrop]
    exact readsAlike_fail (Nat.le_of_lt hnext)
  obtain ⟨token, offset⟩ := t
  rw [Cursor.primary, tokenAt_of_drop hdrop, Expr.primary]
  cases token with
  | name s =>
    dsimp only
    by_cases hparen : tokenAt ts (place + 1) = some (.symbol .leftParen)
    · obtain ⟨offset', hdrop', hopen⟩ := drop_of_tokenAt hparen
      have hargs := h.arguments (place + 1 + 1) hopen (by omega)
      rw [hparen, hdrop']
      dsimp only
      generalize Cursor.list ts textEnd n (place + 1 + 1) = w at hargs ⊢
      generalize Expr.list textEnd n (ts.drop (place + 1 + 1)) = p at hargs ⊢
      cases hargs with
      | fault behind fault hend => exact .fault behind fault hend
      | read args behind hlow hend => exact .read (Expr.call s args) behind (by omega) hend
    · split
      · next heq => exact absurd heq hparen
      · split
        · next heq => exact absurd (tokenAt_of_drop heq) hparen
        · exact .read (Expr.field s) (place + 1) (Nat.le_refl _) hnext
  | symbol s =>
    cases s with
    | leftParen =>
      have hrank : rank .disjunction = 5 := rfl
      have hinner := h.phrase .disjunction (place + 1) hnext (by omega)
      dsimp only
      generalize Cursor.parse ts textEnd n .disjunction (place + 1) = w at hinner ⊢
      generalize Expr.parse textEnd n .disjunction (ts.drop (place + 1)) = p at hinner ⊢
      cases hinner with
      | fault behind fault hend => exact .fault behind fault hend
      | read e behind hlow hend =>
        dsimp only [Walked.andThen]
        rcases expect_cases textEnd .rightParen hend with ⟨hcursor, hparser, hclose⟩ | ⟨fault, hcursor, hparser⟩
        · rw [hcursor, hparser]
          exact .read e (behind + 1) (by omega) hclose
        · rw [hcursor, hparser]
          exact .fault behind fault hend
    | _ => exact hfail _
  | isIn => exact hfail _
  | str s => exact .read (Expr.literal (.str s)) (place + 1) (Nat.le_refl _) hnext
  | int k => exact .read (Expr.literal (.int k)) (place + 1) (Nat.le_refl _) hnext
  | float x => exact .read (Expr.literal (.float x)) (place + 1) (Nat.le_refl _) hnext
  | bool b => exact .read (Expr.literal (.bool b)) (place + 1) (Nat.le_refl _) hnext

theorem arguments_succ (h : Walks ts textEnd n) (hplace : place ≤ ts.length)
    (hn : 10 * (ts.length - place) + 9 ≤ n + 1) :
    ReadsAlike ts textEnd place (Cursor.list ts textEnd (n + 1) place)
      (Expr.list textEnd (n + 1) (ts.drop place)) := by
  by_cases hclose : tokenAt ts place = some (.symbol .rightParen)
  · obtain ⟨offset, hdrop, hnext⟩ := drop_of_tokenAt hclose
    rw [Cursor.list, hclose, hdrop, Expr.list]
    exact .read [] (place + 1) (Nat.le_add_right _ _) hnext
  · have hcursor : Cursor.list ts textEnd (n + 1) place = Cursor.items ts textEnd n place := by
      rw [Cursor.list]
      split
      · next heq => exact absurd heq hclose
      · rfl
    rw [hcursor, Expr.list_eq_items fun offset rest heq => hclose (tokenAt_of_drop heq)]
    exact h.items place hplace (by omega)

theorem items_succ (h : Walks ts textEnd n) (hplace : place ≤ ts.length)
    (hn : 10 * (ts.length - place) + 8 ≤ n + 1) :
    ReadsAlike ts textEnd place (Cursor.items ts textEnd (n + 1) place)
      (Expr.items textEnd (n + 1) (ts.drop place)) := by
  have hrank : rank .disjunction = 5 := rfl
  have hfirst := h.phrase .disjunction place hplace (by omega)
  rw [Cursor.items, Expr.items]
  generalize Cursor.parse ts textEnd n .disjunction place = w at hfirst ⊢
  generalize Expr.parse textEnd n .disjunction (ts.drop place) = p at hfirst ⊢
  cases hfirst with
  | fault behind fault hend => exact .fault behind fault hend
  | read e behind hlow hend =>
    dsimp only [Walked.andThen]
    split
    · next hcomma =>
      obtain ⟨offset, hdrop, hnext⟩ := drop_of_tokenAt hcomma
      have hmore := h.items (behind + 1) hnext (by omega)
      rw [hdrop]
      dsimp only
      generalize Cursor.items ts textEnd n (behind + 1) = w at hmore ⊢
      generalize Expr.items textEnd n (ts.drop (behind + 1)) = p at hmore ⊢
      cases hmore with
      | fault behind fault hend => exact .fault behind fault hend
      | read es last hlast hend => exact .read (e :: es) last (by omega) hend
    · next hclose =>
      obtain ⟨offset, hdrop, hnext⟩ := drop_of_tokenAt hclose
      rw [hdrop]
      exact .read [e] (behind + 1) (by omega) hnext
    · next hcomma hclose =>
      split
      · next e' offset rest heq =>
        exact absurd (tokenAt_of_drop (Prod.mk.inj (Except.ok.inj heq)).2) hcomma
      · next e' offset rest heq =>
        exact absurd (tokenAt_of_drop (Prod.mk.inj (Except.ok.inj heq)).2) hclose
      · next e' rest _ _ heq =>
        rw [← (Prod.mk.inj (Except.ok.inj heq)).2]
        exact readsAlike_fail hend _
      · next heq => simp at heq

theorem succ (h : Walks ts textEnd n) : Walks ts textEnd (n + 1) where
  phrase level place hplace hn := by
    cases level with
    | comparison => exact h.comparison hplace hn
    | operand => exact h.operand hplace hn
    | _ => exact h.chain_phrase rfl hplace hn
  links _ left _ hchains hplace hn := h.links_succ hchains left hplace hn
  primary _ _ hdrop hnext hn := h.primary_succ hdrop hnext hn
  arguments _ hplace hn := h.arguments_succ hplace hn
  items _ hplace hn := h.items_succ hplace hn

end Walks

/-- **A walk with a budget for the tokens ahead reads what the parser reads.** -/
theorem walks (ts : List PlacedToken) (textEnd n : Nat) : Walks ts textEnd n := by
  induction n with
  | zero => exact walks_zero
  | succ n ih => exact ih.succ

/-! ## All tokens -/

/-- The cursor passes all tokens and reads what the parser reads, or both report one fault, at a token or at the
end of the text. -/
theorem ofTokens_cases (ts : List PlacedToken) (textEnd : Nat) :
    (∃ e, ofTokens ts textEnd = some (.ok e) ∧ Expr.ofTokens ts textEnd = .ok e) ∨
      ∃ place fault, place ≤ ts.length ∧
        ofTokens ts textEnd = some (.error (.malformed (offsetAt ts textEnd place) fault)) ∧
        Expr.ofTokens ts textEnd = .error (.malformed (offsetAt ts textEnd place) fault) := by
  have hbudget : 10 * (ts.length - 0) + rank .disjunction + 2 ≤ Expr.budgetFor ts.length := by
    have hrank : rank .disjunction = 5 := rfl
    rw [Expr.budgetFor]
    omega
  have hwalk := (walks ts textEnd (Expr.budgetFor ts.length)).phrase .disjunction 0 (Nat.zero_le _) hbudget
  rw [List.drop_zero] at hwalk
  rw [ofTokens, Expr.ofTokens]
  generalize parse ts textEnd (Expr.budgetFor ts.length) .disjunction 0 = w at hwalk ⊢
  generalize Expr.parse textEnd (Expr.budgetFor ts.length) .disjunction ts = p at hwalk ⊢
  cases hwalk with
  | fault place fault hend => exact Or.inr ⟨place, fault, hend, rfl, rfl⟩
  | read e place hlow hend =>
    dsimp only
    rcases Nat.lt_or_eq_of_le hend with hlt | rfl
    · have hoffset : offsetAt ts textEnd place = ts[place].offset := by
        rw [offsetAt, List.getElem?_eq_getElem hlt, Option.map_some, Option.getD_some]
      rw [List.getElem?_eq_getElem hlt, List.drop_eq_getElem_cons hlt]
      exact Or.inr ⟨place, .unexpectedToken ts[place].token.spelling, hend, by rw [hoffset], by rw [hoffset]⟩
    · rw [List.getElem?_eq_none (Nat.le_refl _), List.drop_length]
      exact Or.inl ⟨e, rfl, rfl⟩

/-- **The cursor reads what the parser reads, and its budget lasts.** -/
theorem ofTokens_eq (ts : List PlacedToken) (textEnd : Nat) :
    ofTokens ts textEnd = some (Expr.ofTokens ts textEnd) := by
  rcases ofTokens_cases ts textEnd with ⟨e, hcursor, hparser⟩ | ⟨place, fault, -, hcursor, hparser⟩
  · rw [hcursor, hparser]
  · rw [hcursor, hparser]

/-- Every fault is at a token or at the end of the text. -/
theorem place_of_error {e : MatcherError} (h : Expr.ofTokens ts textEnd = .error e) :
    ∃ place fault, place ≤ ts.length ∧ e = .malformed (offsetAt ts textEnd place) fault := by
  rcases ofTokens_cases ts textEnd with ⟨found, -, hparser⟩ | ⟨place, fault, hend, -, hparser⟩
  · rw [h] at hparser
    simp at hparser
  · exact ⟨place, fault, hend, Except.error.inj (h.symm.trans hparser)⟩

end Cursor

end AccessControl
