import AccessControl.Proofs.Expr.Grammar
/-!
# Parsing

The parser finds the derivation of a sentence if there is one, and reports a fault if there is none.

    what is read off the front of the tokens is derived, or a fault is reported       (`sound`)
    a phrase with tokens behind it that end it is read, and the tokens behind it are left
                                                                                      (`Phrase.parse_eq`)
    ofTokens ts textEnd = .ok e ↔ ts is a sentence whose derivation builds e          (`ofTokens_iff_derives`)
-/

namespace AccessControl

namespace Expr

open Grammar

/-- Tokens without their places. -/
def bare (ts : List PlacedToken) : List Token := ts.map (·.token)

@[simp] theorem bare_nil : bare [] = [] := rfl

@[simp] theorem bare_cons (t : PlacedToken) (ts : List PlacedToken) :
    bare (t :: ts) = t.token :: bare ts := rfl

theorem bare_append (ts us : List PlacedToken) : bare (ts ++ us) = bare ts ++ bare us :=
  List.map_append

theorem bare_cons_inj {t : PlacedToken} {ts : List PlacedToken} {token : Token} {more : List Token}
    (h : bare (t :: ts) = token :: more) : t.token = token ∧ bare ts = more := List.cons.inj h

theorem bare_eq_cons {ts : List PlacedToken} {t : Token} {more : List Token}
    (h : bare ts = t :: more) : ∃ offset rest, ts = ⟨t, offset⟩ :: rest ∧ bare rest = more := by
  cases ts with
  | nil => simp at h
  | cons first rest =>
    obtain ⟨token, offset⟩ := first
    obtain ⟨rfl, hrest⟩ := List.cons.inj h
    exact ⟨offset, rest, rfl, hrest⟩

theorem bare_eq_append {ts : List PlacedToken} {front back : List Token}
    (h : bare ts = front ++ back) :
    ∃ first rest, ts = first ++ rest ∧ bare first = front ∧ bare rest = back :=
  List.map_eq_append_iff.1 h

/-! ## Whatever is read is derived -/

/-- A parser read a tree off the front of the tokens, or reports a fault. -/
inductive Reads {τ α : Type} (tokens : τ → List Token) (value : τ → α) (ts : List PlacedToken) :
    Parsed α → Prop where
  | tree (t : τ) (rest : List PlacedToken) (h : bare ts = tokens t ++ bare rest) :
    Reads tokens value ts (.ok (value t, rest))
  | fault (offset : Nat) (fault : SyntaxFault) : Reads tokens value ts (.error (.malformed offset fault))

section

variable {textEnd n : Nat} {τ α : Type} {tokens : τ → List Token} {value : τ → α}

/-- What is read, as the value of a tree. -/
theorem reads_of_eq {ts rest : List PlacedToken} {a : α} (t : τ) (h : bare ts = tokens t ++ bare rest)
    (ha : value t = a) : Reads tokens value ts (.ok (a, rest)) := by
  rw [← ha]
  exact .tree t rest h

theorem reads_fail (ts left : List PlacedToken) (fault : SyntaxFault) :
    Reads tokens value ts (fail textEnd left fault) := .fault _ fault

/-- A symbol that must come next comes next, or its absence is the fault. -/
theorem expect_cases (textEnd : Nat) (s : Symbol) (ts : List PlacedToken) :
    (∃ rest, bare ts = .symbol s :: bare rest ∧ expect textEnd s ts = .ok rest) ∨
      ∃ offset fault, expect textEnd s ts = .error (.malformed offset fault) := by
  unfold expect
  split
  · next found offset rest =>
    split
    · next heq => exact Or.inl ⟨rest, by simp [heq], rfl⟩
    · exact Or.inr ⟨offset, _, rfl⟩
  · next t _ _ => exact Or.inr ⟨t.offset, _, rfl⟩
  · exact Or.inr ⟨textEnd, _, rfl⟩

theorem reads_attributes (textEnd : Nat) (base : Expr) (ts : List PlacedToken) :
    Reads attributeTokens (fun names => names.foldl .attr base) ts (attributes textEnd base ts) := by
  fun_induction attributes textEnd base ts with
  | case1 base _ name _ rest ih =>
    generalize attributes textEnd (.attr base name) rest = r at ih ⊢
    cases ih with
    | tree names left h =>
      refine reads_of_eq (name :: names) ?_ rfl
      rw [bare_cons, bare_cons, h]
      rfl
    | fault offset f => exact .fault offset f
  | case2 => exact reads_fail _ _ _
  | case3 base ts => exact reads_of_eq [] rfl rfl

theorem parse_of_chains {level : Level} (h : level.chains = true) (ts : List PlacedToken) :
    parse textEnd (n + 1) level ts =
      match parse textEnd n level.next ts with
      | .ok (left, rest) => chain textEnd n level left rest
      | .error e => .error e := by
  cases level <;> first | rfl | simp [Level.chains] at h

theorem list_eq_items {ts : List PlacedToken}
    (h : ∀ offset rest, ts ≠ ⟨.symbol .rightParen, offset⟩ :: rest) :
    list textEnd (n + 1) ts = Expr.items textEnd n ts := by
  rw [list]
  exact h

/-- Within a budget, all that is read is derived. -/
structure Sound (textEnd n : Nat) : Prop where
  phrase : ∀ level ts, Reads (@Phrase.tokens level) Phrase.expr ts (parse textEnd n level ts)
  links : ∀ level, level.chains = true → ∀ left ts,
    Reads Links.tokens (fun links : Links level => links.fold left) ts (chain textEnd n level left ts)
  primary : ∀ t rest, Reads Primary.tokens Primary.expr (t :: rest) (primary textEnd n t rest)
  arguments : ∀ ts, Reads Arguments.tokens Arguments.exprs ts (list textEnd n ts)
  items : ∀ ts, Reads Items.tokens Items.exprs ts (items textEnd n ts)

theorem sound_zero : Sound textEnd 0 where
  phrase _ ts := by
    rw [parse]
    exact reads_fail ts _ _
  links _ _ _ ts := by
    rw [chain]
    exact reads_fail ts _ _
  primary t rest := by
    rw [Expr.primary]
    exact reads_fail (t :: rest) _ _
  arguments ts := by
    rw [list]
    exact reads_fail ts _ _
  items ts := by
    rw [Expr.items]
    exact reads_fail ts _ _

namespace Sound

theorem chain_phrase (h : Sound textEnd n) {level : Level} (hchains : level.chains = true)
    (ts : List PlacedToken) :
    Reads (@Phrase.tokens level) Phrase.expr ts (parse textEnd (n + 1) level ts) := by
  rw [parse_of_chains hchains]
  have hfirst := h.phrase level.next ts
  generalize parse textEnd n level.next ts = r at hfirst ⊢
  cases hfirst with
  | fault offset f => exact .fault offset f
  | tree first rest hfirst =>
    have hlinks := h.links level hchains first.expr rest
    dsimp only
    generalize chain textEnd n level first.expr rest = r at hlinks ⊢
    cases hlinks with
    | fault offset f => exact .fault offset f
    | tree links left hlinks =>
      have htokens : bare ts = (Phrase.chain hchains first links).tokens ++ bare left := by
        rw [hfirst, hlinks, Phrase.tokens, List.append_assoc]
      exact .tree (Phrase.chain hchains first links) left htokens

theorem comparison (h : Sound textEnd n) (ts : List PlacedToken) :
    Reads (@Phrase.tokens .comparison) Phrase.expr ts
      (parse textEnd (n + 1) .comparison ts) := by
  have hleft := h.phrase .sum ts
  rw [parse]
  generalize parse textEnd n .sum ts = r at hleft ⊢
  cases hleft with
  | fault offset f => exact .fault offset f
  | tree left rest hleft =>
    have hbare : ∀ (tail : Tail) (more : List PlacedToken), bare rest = tail.tokens ++ bare more →
        bare ts = (Phrase.comparison left tail).tokens ++ bare more := by
      intro tail more hmore
      rw [hleft, hmore, Phrase.tokens, List.append_assoc]
    cases rest with
    | nil => exact .tree (Phrase.comparison left .nothing) [] (hbare .nothing [] rfl)
    | cons t rest =>
      dsimp only
      split
      · next hin =>
        rcases expect_cases textEnd .leftParen rest with ⟨more, hparen, heq⟩ | ⟨offset, f, heq⟩
        · have hitems := h.arguments more
          rw [heq]
          dsimp only
          generalize list textEnd n more = r at hitems ⊢
          cases hitems with
          | fault offset f => exact .fault offset f
          | tree items last hitems =>
            have htail : bare (t :: rest) = (Tail.isIn items).tokens ++ bare last := by
              rw [bare_cons, hin, hparen, hitems, Tail.tokens, List.cons_append, List.cons_append]
            exact .tree (Phrase.comparison left (.isIn items)) last (hbare _ last htail)
        · rw [heq]
          exact .fault offset f
      · split
        · next op hop =>
          obtain ⟨hmem, htoken⟩ := comparisonOp?_eq_some_iff.1 hop
          have hright := h.phrase .sum rest
          generalize parse textEnd n .sum rest = r at hright ⊢
          cases hright with
          | fault offset f => exact .fault offset f
          | tree right last hright =>
            have htail : bare (t :: rest) = (Tail.compare op hmem right).tokens ++ bare last := by
              rw [bare_cons, htoken, hright, Tail.tokens, List.cons_append]
            exact .tree (Phrase.comparison left (.compare op hmem right)) last (hbare _ last htail)
        · exact .tree (Phrase.comparison left .nothing) (t :: rest) (hbare .nothing (t :: rest) rfl)

theorem operand (h : Sound textEnd n) (ts : List PlacedToken) :
    Reads (@Phrase.tokens .operand) Phrase.expr ts (parse textEnd (n + 1) .operand ts) := by
  cases ts with
  | nil => exact reads_fail [] _ _
  | cons t rest =>
    rw [parse]
    split
    · next op hop =>
      have hoperand := h.phrase .operand rest
      generalize parse textEnd n .operand rest = r at hoperand ⊢
      cases hoperand with
      | fault offset f => exact .fault offset f
      | tree operand left hoperand =>
        have htokens : bare (t :: rest) = (Phrase.unary op operand).tokens ++ bare left := by
          rw [bare_cons, unaryOp?_eq_some_iff.1 hop, hoperand, Phrase.tokens, List.cons_append]
        exact .tree (Phrase.unary op operand) left htokens
    · have hbase := h.primary t rest
      generalize Expr.primary textEnd n t rest = r at hbase ⊢
      cases hbase with
      | fault offset f => exact .fault offset f
      | tree base more hbase =>
        have hnames := reads_attributes textEnd base.expr more
        dsimp only
        generalize attributes textEnd base.expr more = r at hnames ⊢
        cases hnames with
        | fault offset f => exact .fault offset f
        | tree names left hnames =>
          have htokens : bare (t :: rest) = (Phrase.primary base names).tokens ++ bare left := by
            rw [hbase, hnames, Phrase.tokens, List.append_assoc]
          exact .tree (Phrase.primary base names) left htokens

theorem links_succ (h : Sound textEnd n) {level : Level} (hchains : level.chains = true) (left : Expr)
    (ts : List PlacedToken) : Reads Links.tokens (fun links : Links level => links.fold left) ts
      (chain textEnd (n + 1) level left ts) := by
  have hdone : ∀ ts, Reads Links.tokens (fun links : Links level => links.fold left) ts
      (.ok (left, ts)) := fun ts => reads_of_eq .done rfl rfl
  cases ts with
  | nil => exact hdone []
  | cons t rest =>
    rw [chain]
    split
    · exact hdone (t :: rest)
    · next op hop =>
      obtain ⟨hmem, htoken⟩ := (Level.chainOp?_eq_some_iff hchains).1 hop
      have hpart := h.phrase level.next rest
      generalize parse textEnd n level.next rest = r at hpart ⊢
      cases hpart with
      | fault offset f => exact .fault offset f
      | tree part more hpart =>
        have hlinks := h.links level hchains (.binary op left part.expr) more
        dsimp only
        generalize chain textEnd n level (.binary op left part.expr) more = r at hlinks ⊢
        cases hlinks with
        | fault offset f => exact .fault offset f
        | tree links last hlinks =>
          have htokens : bare (t :: rest) = (Links.more op hmem part links).tokens ++ bare last := by
            rw [bare_cons, htoken, hpart, hlinks, Links.tokens, List.cons_append, List.append_assoc]
          exact reads_of_eq (.more op hmem part links) htokens rfl

theorem primary_succ (h : Sound textEnd n) (t : PlacedToken) (rest : List PlacedToken) :
    Reads Primary.tokens Primary.expr (t :: rest) (Expr.primary textEnd (n + 1) t rest) := by
  rw [Expr.primary]
  split
  · next name hname =>
    split
    · next offset rest =>
      have hargs := h.arguments rest
      generalize list textEnd n rest = r at hargs ⊢
      cases hargs with
      | fault offset f => exact .fault offset f
      | tree args left hargs =>
        have htokens : bare (t :: ⟨.symbol .leftParen, offset⟩ :: rest) =
            (Primary.call name args).tokens ++ bare left := by
          rw [bare_cons, bare_cons, hname, hargs, Primary.tokens, List.cons_append,
            List.cons_append]
        exact .tree (Primary.call name args) left htokens
    · exact .tree (Primary.field name) rest (by rw [bare_cons, hname]; rfl)
  · next hparen =>
    have hinner := h.phrase .disjunction rest
    generalize parse textEnd n .disjunction rest = r at hinner ⊢
    cases hinner with
    | fault offset f => exact .fault offset f
    | tree inner more hinner =>
      dsimp only
      rcases expect_cases textEnd .rightParen more with ⟨left, hclose, heq⟩ | ⟨offset, f, heq⟩
      · rw [heq]
        have htokens : bare (t :: rest) = (Primary.paren inner).tokens ++ bare left := by
          rw [bare_cons, hparen, hinner, hclose, Primary.tokens]
          simp
        exact .tree (Primary.paren inner) left htokens
      · rw [heq]
        exact .fault offset f
  · split
    · next v hv =>
      obtain ⟨l, htoken, rfl⟩ := Token.exists_literal hv
      exact .tree (Primary.literal l) rest (by rw [bare_cons, ← htoken]; rfl)
    · exact reads_fail _ _ _

theorem arguments_succ (h : Sound textEnd n) (ts : List PlacedToken) :
    Reads Arguments.tokens Arguments.exprs ts (list textEnd (n + 1) ts) := by
  by_cases hclose : ∃ offset rest, ts = ⟨.symbol .rightParen, offset⟩ :: rest
  · obtain ⟨offset, rest, rfl⟩ := hclose
    exact reads_of_eq .nothing rfl rfl
  · rw [list_eq_items fun offset rest heq => hclose ⟨offset, rest, heq⟩]
    have hitems := h.items ts
    generalize Expr.items textEnd n ts = r at hitems ⊢
    cases hitems with
    | fault offset f => exact .fault offset f
    | tree items left hitems => exact reads_of_eq (.items items) hitems rfl

theorem items_succ (h : Sound textEnd n) (ts : List PlacedToken) :
    Reads Items.tokens Items.exprs ts (Expr.items textEnd (n + 1) ts) := by
  have he := h.phrase .disjunction ts
  rw [Expr.items]
  generalize parse textEnd n .disjunction ts = r at he ⊢
  cases he with
  | fault offset f => exact .fault offset f
  | tree e more he =>
    split
    · next e' offset rest heq =>
      obtain ⟨rfl, rfl⟩ := Prod.mk.inj (Except.ok.inj heq)
      have hrest := h.items rest
      generalize Expr.items textEnd n rest = r at hrest ⊢
      cases hrest with
      | fault offset f => exact .fault offset f
      | tree items left hrest =>
        refine reads_of_eq (.more e items) ?_ rfl
        rw [he, bare_cons, hrest, Items.tokens, List.append_assoc, List.cons_append]
    · next e' offset rest heq =>
      obtain ⟨rfl, rfl⟩ := Prod.mk.inj (Except.ok.inj heq)
      refine reads_of_eq (.last e) ?_ rfl
      rw [he, bare_cons, Items.tokens, List.append_assoc]
      rfl
    · exact reads_fail _ _ _
    · next heq => simp at heq

end Sound

theorem sound_succ (h : Sound textEnd n) : Sound textEnd (n + 1) where
  phrase level ts := by
    cases level with
    | comparison => exact h.comparison ts
    | operand => exact h.operand ts
    | _ => exact h.chain_phrase rfl ts
  links _ hchains left ts := h.links_succ hchains left ts
  primary := h.primary_succ
  arguments := h.arguments_succ
  items := h.items_succ

theorem sound (textEnd n : Nat) : Sound textEnd n := by
  induction n with
  | zero => exact sound_zero
  | succ n ih => exact sound_succ ih

end

/-! ## Whatever is derived is read -/

theorem attributes_eq {textEnd : Nat} {names : List String} {ts us : List PlacedToken} (base : Expr)
    (h : bare ts = attributeTokens names) (hu : Ends .operand (bare us)) :
    attributes textEnd base (ts ++ us) = .ok (names.foldl .attr base, us) := by
  induction names generalizing ts base with
  | nil =>
    obtain rfl : ts = [] := List.map_eq_nil_iff.1 h
    have hdot : ∀ offset rest, us ≠ ⟨.symbol .dot, offset⟩ :: rest := by
      rintro offset rest rfl
      exact not_ends_dot _ hu
    rw [List.nil_append, attributes]
    · rfl
    · intro offset name place rest heq
      exact hdot offset _ heq
    · intro offset rest heq
      exact hdot offset rest heq
  | cons name more ih =>
    obtain ⟨offset, rest, rfl, hrest⟩ := bare_eq_cons h
    obtain ⟨place, rest, rfl, hmore⟩ := bare_eq_cons hrest
    exact ih (.attr base name) hmore

theorem expect_eq (textEnd : Nat) (s : Symbol) (offset : Nat) (rest : List PlacedToken) :
    expect textEnd s (⟨.symbol s, offset⟩ :: rest) = .ok rest := by
  rw [expect, if_pos rfl]

/-- Nothing that a sum goes on with stands behind it. -/
theorem parse_comparison_alone {textEnd n : Nat} {ts us : List PlacedToken} {left : Expr}
    (h : parse textEnd n .sum ts = .ok (left, us)) (hu : Ends .comparison (bare us)) :
    parse textEnd (n + 1) .comparison ts = .ok (left, us) := by
  rw [parse, h]
  cases us with
  | nil => rfl
  | cons t rest =>
    have hnone : comparisonOp? t.token = none := by
      rw [Option.eq_none_iff_forall_ne_some]
      intro op hop
      obtain ⟨hmem, htoken⟩ := comparisonOp?_eq_some_iff.1 hop
      rw [bare_cons, htoken] at hu
      exact hu.not_operator hmem
    dsimp only
    split
    · next hin =>
      rw [bare_cons, hin] at hu
      exact (not_ends_in _ hu).elim
    · rw [hnone]

theorem chain_done {textEnd n : Nat} {level : Level} (hchains : level.chains = true) (left : Expr)
    {us : List PlacedToken} (hu : Ends level (bare us)) :
    chain textEnd (n + 1) level left us = .ok (left, us) := by
  cases us with
  | nil => rw [chain]
  | cons t rest =>
    have hnone : level.chainOp? t.token = none := by
      rw [Option.eq_none_iff_forall_ne_some]
      intro op hop
      obtain ⟨hmem, htoken⟩ := (Level.chainOp?_eq_some_iff hchains).1 hop
      rw [bare_cons, htoken] at hu
      exact hu.not_operator hmem
    rw [chain, hnone]

end Expr

namespace Grammar

open AccessControl.Expr

variable {textEnd : Nat}

mutual

/-- **A phrase is read.**  Ten calls for every token are enough. -/
theorem Phrase.parse_eq : {level : Level} → (phrase : Phrase level) → {n : Nat} →
    {ts us : List PlacedToken} → bare ts = phrase.tokens → Ends level (bare us) →
    10 * phrase.tokens.length + rank level ≤ n → parse textEnd n level (ts ++ us) = .ok (phrase.expr, us)
  | level, .chain hchains first rest, n, ts, us, h, hu, hn => by
    obtain ⟨ts, more, rfl, hfirst, hrest⟩ := bare_eq_append h
    -- the first part has a token, so the budget is left for one call more
    obtain ⟨t, others, heq, -⟩ := first.tokens_eq
    have hlength : first.tokens.length = others.length + 1 := by rw [heq, List.length_cons]
    rw [Phrase.tokens, List.length_append] at hn
    have hrank := rank_next hchains
    obtain ⟨n, rfl⟩ := Nat.exists_eq_add_one.2 (show 0 < n by omega)
    have hends : Ends level.next (bare (more ++ us)) := by
      rw [bare_append, hrest]
      exact rest.ends hchains hu
    have hread : parse textEnd n level.next (ts ++ (more ++ us)) = .ok (first.expr, more ++ us) :=
      first.parse_eq hfirst hends (by omega)
    rw [List.append_assoc, parse_of_chains hchains, hread]
    exact rest.chain_eq first.expr hrest hchains hu (by omega)
  | _, .comparison left tail, n, ts, us, h, hu, hn => by
    obtain ⟨ts, more, rfl, hleft, htail⟩ := bare_eq_append h
    rw [Phrase.tokens, List.length_append] at hn
    have hrank : rank .comparison = 3 := rfl
    obtain ⟨n, rfl⟩ := Nat.exists_eq_add_one.2 (show 0 < n by omega)
    have hends : Ends .sum (bare (more ++ us)) := by
      rw [bare_append, htail]
      exact tail.ends hu
    have hread : parse textEnd n .sum (ts ++ (more ++ us)) = .ok (left.expr, more ++ us) :=
      left.parse_eq hleft hends (by simp only [rank]; omega)
    rw [List.append_assoc]
    exact tail.comparison_eq hread htail hu (by omega)
  | _, .unary op operand, n, ts, us, h, hu, hn => by
    obtain ⟨offset, ts, rfl, hoperand⟩ := bare_eq_cons h
    rw [Phrase.tokens, List.length_cons] at hn
    obtain ⟨n, rfl⟩ := Nat.exists_eq_add_one.2 (show 0 < n by omega)
    have hread : parse textEnd n .operand (ts ++ us) = .ok (operand.expr, us) :=
      operand.parse_eq hoperand hu (by omega)
    rw [List.cons_append, parse, unaryOp?_eq_some_iff.2 rfl]
    dsimp only
    rw [hread]
    rfl
  | _, .primary base names, n, ts, us, h, hu, hn => by
    obtain ⟨ts, more, rfl, hbase, hnames⟩ := bare_eq_append h
    obtain ⟨t, others, heq, -, hnone⟩ := base.tokens_eq
    obtain ⟨offset, ts, rfl, -⟩ := bare_eq_cons (hbase.trans heq)
    rw [Phrase.tokens, List.length_append, heq, List.length_cons] at hn
    obtain ⟨n, rfl⟩ := Nat.exists_eq_add_one.2 (show 0 < n by omega)
    have huncalled : Uncalled (bare (more ++ us)) := by
      rw [bare_append, hnames]
      exact uncalled_attributes names hu
    have hread : Expr.primary textEnd n ⟨t, offset⟩ (ts ++ (more ++ us)) = .ok (base.expr, more ++ us) :=
      base.primary_eq hbase huncalled (by rw [heq, List.length_cons]; omega)
    rw [List.append_assoc, List.cons_append, parse, hnone]
    dsimp only
    rw [hread]
    exact attributes_eq base.expr hnames hu
  termination_by structural _ phrase => phrase

theorem Links.chain_eq : {level : Level} → (links : Links level) → {n : Nat} →
    {ts us : List PlacedToken} → (left : Expr) → bare ts = links.tokens → level.chains = true →
    Ends level (bare us) → 10 * links.tokens.length + 1 ≤ n →
    chain textEnd n level left (ts ++ us) = .ok (links.fold left, us)
  | _, .done, n, ts, us, left, h, hchains, hu, hn => by
    obtain rfl : ts = [] := List.map_eq_nil_iff.1 h
    obtain ⟨n, rfl⟩ := Nat.exists_eq_add_one.2 (show 0 < n by omega)
    exact chain_done hchains left hu
  | level, .more op hop part rest, n, ts, us, left, h, hchains, hu, hn => by
    obtain ⟨offset, ts, rfl, hmore⟩ := bare_eq_cons h
    obtain ⟨ts, more, rfl, hpart, hrest⟩ := bare_eq_append hmore
    rw [Links.tokens, List.length_cons, List.length_append] at hn
    obtain ⟨n, rfl⟩ := Nat.exists_eq_add_one.2 (show 0 < n by omega)
    have hrank : rank level ≤ 5 := by cases level <;> decide
    have hnext := rank_next hchains
    have hends : Ends level.next (bare (more ++ us)) := by
      rw [bare_append, hrest]
      exact rest.ends hchains hu
    have hread : parse textEnd n level.next (ts ++ (more ++ us)) = .ok (part.expr, more ++ us) :=
      part.parse_eq hpart hends (by omega)
    rw [List.cons_append, List.append_assoc, chain, (Level.chainOp?_eq_some_iff hchains).2 ⟨hop, rfl⟩]
    dsimp only
    rw [hread]
    exact rest.chain_eq (.binary op left part.expr) hrest hchains hu (by omega)
  termination_by structural _ links => links

theorem Tail.comparison_eq : (tail : Tail) → {n : Nat} → {ts more us : List PlacedToken} →
    {left : Expr} → parse textEnd n .sum (ts ++ (more ++ us)) = .ok (left, more ++ us) →
    bare more = tail.tokens → Ends .comparison (bare us) → 10 * tail.tokens.length + 2 ≤ n →
    parse textEnd (n + 1) .comparison (ts ++ (more ++ us)) = .ok (tail.compared left, us)
  | .nothing, n, ts, more, us, left, hleft, h, hu, hn => by
    obtain rfl : more = [] := List.map_eq_nil_iff.1 h
    exact parse_comparison_alone hleft hu
  | .compare op hop right, n, ts, more, us, left, hleft, h, hu, hn => by
    obtain ⟨offset, more, rfl, hright⟩ := bare_eq_cons h
    rw [Tail.tokens, List.length_cons] at hn
    have hread : parse textEnd n .sum (more ++ us) = .ok (right.expr, us) :=
      right.parse_eq hright (hu.tighter (by decide)) (by simp only [rank]; omega)
    rw [parse, hleft, List.cons_append]
    dsimp only
    rw [comparisonOp?_eq_some_iff.2 ⟨hop, rfl⟩]
    dsimp only
    rw [hread]
    rfl
  | .isIn items, n, ts, more, us, left, hleft, h, hu, hn => by
    obtain ⟨offset, more, rfl, hparen⟩ := bare_eq_cons h
    obtain ⟨place, more, rfl, hitems⟩ := bare_eq_cons hparen
    rw [Tail.tokens, List.length_cons, List.length_cons] at hn
    have hread : list textEnd n (more ++ us) = .ok (items.exprs, us) :=
      items.list_eq hitems (by omega)
    rw [parse, hleft, List.cons_append, List.cons_append]
    dsimp only
    rw [expect_eq]
    dsimp only
    rw [hread]
    rfl
  termination_by structural tail => tail

theorem Primary.primary_eq : (base : Primary) → {n : Nat} → {t : PlacedToken} →
    {ts us : List PlacedToken} → bare (t :: ts) = base.tokens → Uncalled (bare us) →
    10 * base.tokens.length ≤ n + 5 → Expr.primary textEnd n t (ts ++ us) = .ok (base.expr, us)
  | .literal l, n, t, ts, us, h, hu, hn => by
    obtain ⟨htoken, hts⟩ := bare_cons_inj h
    obtain rfl : ts = [] := List.map_eq_nil_iff.1 hts
    rw [Primary.tokens, List.length_singleton] at hn
    obtain ⟨n, rfl⟩ := Nat.exists_eq_add_one.2 (show 0 < n by omega)
    rw [Expr.primary, htoken, List.nil_append]
    cases l <;> rfl
  | .field name, n, t, ts, us, h, hu, hn => by
    obtain ⟨htoken, hts⟩ := bare_cons_inj h
    obtain rfl : ts = [] := List.map_eq_nil_iff.1 hts
    rw [Primary.tokens, List.length_singleton] at hn
    obtain ⟨n, rfl⟩ := Nat.exists_eq_add_one.2 (show 0 < n by omega)
    rw [Expr.primary, htoken, List.nil_append]
    dsimp only
    split
    · exact absurd rfl hu
    · rfl
  | .call name args, n, t, ts, us, h, hu, hn => by
    obtain ⟨htoken, hparen⟩ := bare_cons_inj h
    obtain ⟨offset, ts, rfl, hargs⟩ := bare_eq_cons hparen
    rw [Primary.tokens, List.length_cons, List.length_cons] at hn
    obtain ⟨n, rfl⟩ := Nat.exists_eq_add_one.2 (show 0 < n by omega)
    have hread : list textEnd n (ts ++ us) = .ok (args.exprs, us) := args.list_eq hargs (by omega)
    rw [Expr.primary, htoken, List.cons_append]
    dsimp only
    rw [hread]
    rfl
  | .paren inner, n, t, ts, us, h, hu, hn => by
    obtain ⟨htoken, hts⟩ := bare_cons_inj h
    obtain ⟨ts, close, rfl, hinner, hclose⟩ := bare_eq_append hts
    obtain ⟨offset, close, rfl, hnil⟩ := bare_eq_cons hclose
    obtain rfl : close = [] := List.map_eq_nil_iff.1 hnil
    rw [Primary.tokens, List.length_cons, List.length_append, List.length_singleton] at hn
    obtain ⟨n, rfl⟩ := Nat.exists_eq_add_one.2 (show 0 < n by omega)
    have hread : parse textEnd n .disjunction (ts ++ ⟨.symbol .rightParen, offset⟩ :: us) =
        .ok (inner.expr, ⟨.symbol .rightParen, offset⟩ :: us) :=
      inner.parse_eq hinner (ends_of_none rfl _) (by simp only [rank]; omega)
    rw [Expr.primary, htoken, List.append_assoc, List.singleton_append]
    dsimp only
    rw [hread]
    dsimp only
    rw [expect_eq]
    rfl
  termination_by structural base => base

theorem Arguments.list_eq : (args : Arguments) → {n : Nat} → {ts us : List PlacedToken} →
    bare ts = args.tokens → 10 * args.tokens.length + 7 ≤ n →
    list textEnd n (ts ++ us) = .ok (args.exprs, us)
  | .nothing, n, ts, us, h, hn => by
    obtain ⟨offset, ts, rfl, hnil⟩ := bare_eq_cons h
    obtain rfl : ts = [] := List.map_eq_nil_iff.1 hnil
    obtain ⟨n, rfl⟩ := Nat.exists_eq_add_one.2 (show 0 < n by omega)
    rfl
  | .items items, n, ts, us, h, hn => by
    rw [Arguments.tokens] at h hn
    obtain ⟨n, rfl⟩ := Nat.exists_eq_add_one.2 (show 0 < n by omega)
    have hopen : ∀ offset rest, ts ++ us ≠ ⟨.symbol .rightParen, offset⟩ :: rest := by
      intro offset rest heq
      have hbare := congrArg bare heq
      rw [bare_append, h] at hbare
      exact items.tokens_ne _ _ hbare
    rw [list_eq_items hopen]
    exact items.items_eq h (by omega)
  termination_by structural args => args

theorem Items.items_eq : (items : Items) → {n : Nat} → {ts us : List PlacedToken} →
    bare ts = items.tokens → 10 * items.tokens.length + 6 ≤ n →
    Expr.items textEnd n (ts ++ us) = .ok (items.exprs, us)
  | .last e, n, ts, us, h, hn => by
    obtain ⟨ts, close, rfl, he, hclose⟩ := bare_eq_append h
    obtain ⟨offset, close, rfl, hnil⟩ := bare_eq_cons hclose
    obtain rfl : close = [] := List.map_eq_nil_iff.1 hnil
    rw [Items.tokens, List.length_append, List.length_singleton] at hn
    obtain ⟨n, rfl⟩ := Nat.exists_eq_add_one.2 (show 0 < n by omega)
    have hread : parse textEnd n .disjunction (ts ++ ⟨.symbol .rightParen, offset⟩ :: us) =
        .ok (e.expr, ⟨.symbol .rightParen, offset⟩ :: us) :=
      e.parse_eq he (ends_of_none rfl _) (by simp only [rank]; omega)
    rw [List.append_assoc, List.singleton_append, Expr.items, hread]
    rfl
  | .more e rest, n, ts, us, h, hn => by
    obtain ⟨ts, more, rfl, he, hmore⟩ := bare_eq_append h
    obtain ⟨offset, more, rfl, hrest⟩ := bare_eq_cons hmore
    rw [Items.tokens, List.length_append, List.length_cons] at hn
    obtain ⟨n, rfl⟩ := Nat.exists_eq_add_one.2 (show 0 < n by omega)
    have hread : parse textEnd n .disjunction (ts ++ ⟨.symbol .comma, offset⟩ :: (more ++ us)) =
        .ok (e.expr, ⟨.symbol .comma, offset⟩ :: (more ++ us)) :=
      e.parse_eq he (ends_of_none rfl _) (by simp only [rank]; omega)
    rw [List.append_assoc, List.cons_append, Expr.items, hread]
    dsimp only
    rw [rest.items_eq hrest (by omega)]
    rfl
  termination_by structural items => items

end

end Grammar

/-! ## Top theorem -/

namespace Expr

open Grammar

/-- The budget is enough for all tokens. -/
theorem ofTokens_eq (d : Phrase .disjunction) {ts : List PlacedToken} (h : bare ts = d.tokens)
    (textEnd : Nat) : Expr.ofTokens ts textEnd = .ok d.expr := by
  have hlength : d.tokens.length = ts.length := by rw [← h, bare, List.length_map]
  have hbudget : 10 * d.tokens.length + rank .disjunction ≤ budgetFor ts.length := by
    rw [hlength]
    simp only [budgetFor, rank]
    omega
  have hparse : parse textEnd (budgetFor ts.length) .disjunction (ts ++ []) = .ok (d.expr, []) :=
    d.parse_eq h (ends_nil _) hbudget
  rw [List.append_nil] at hparse
  rw [ofTokens, hparse]

/-- **The parser is the grammar.**  All the tokens of a text make up an expression when they are a
sentence whose derivation builds it; no tokens have two derivations; and the answer is a fault of the
text when, and only when, they have none. -/
theorem ofTokens_iff_derives (ts : List PlacedToken) (textEnd : Nat) :
    (∀ e, Expr.ofTokens ts textEnd = .ok e ↔
      ∃ d : Phrase .disjunction, d.tokens = ts.map (·.token) ∧ d.expr = e) ∧
    Function.Injective (Phrase.tokens : Phrase .disjunction → List Token) ∧
    ((∃ offset fault, Expr.ofTokens ts textEnd = .error (.malformed offset fault)) ↔
      ¬ ∃ d : Phrase .disjunction, d.tokens = ts.map (·.token)) := by
  have hread : ∀ d : Phrase .disjunction, d.tokens = ts.map (·.token) →
      Expr.ofTokens ts textEnd = .ok d.expr := fun d hd => ofTokens_eq d hd.symm textEnd
  have hderived : (∃ d : Phrase .disjunction, d.tokens = ts.map (·.token) ∧
      Expr.ofTokens ts textEnd = .ok d.expr) ∨
      ∃ offset fault, Expr.ofTokens ts textEnd = .error (.malformed offset fault) := by
    have hreads := (sound textEnd (budgetFor ts.length)).phrase .disjunction ts
    unfold ofTokens
    generalize parse textEnd (budgetFor ts.length) .disjunction ts = r at hreads ⊢
    cases hreads with
    | fault offset f => exact Or.inr ⟨offset, f, rfl⟩
    | tree d rest h =>
      cases rest with
      | nil => exact Or.inl ⟨d, by rw [← bare, h, bare_nil, List.append_nil], rfl⟩
      | cons t rest => exact Or.inr ⟨t.offset, _, rfl⟩
  refine ⟨fun e => ⟨fun he => ?_, ?_⟩, fun d d' hd => ?_, ?_, fun hnone => ?_⟩
  · rcases hderived with ⟨d, hd, hok⟩ | ⟨offset, f, herror⟩
    · exact ⟨d, hd, Except.ok.inj (hok.symm.trans he)⟩
    · rw [herror] at he
      simp at he
  · rintro ⟨d, hd, rfl⟩
    exact hread d hd
  · have htokens : d.tokens ++ [] = d'.tokens ++ [] := by rw [hd]
    exact (d.unique d' htokens (ends_nil _) (ends_nil _)).1
  · rintro ⟨offset, f, herror⟩ ⟨d, hd⟩
    rw [hread d hd] at herror
    simp at herror
  · rcases hderived with ⟨d, hd, -⟩ | hfault
    · exact absurd ⟨d, hd⟩ hnone
    · exact hfault

/-- A comparison of a comparison is no sentence. -/
example : Expr.ofTokens ([.name "a", .symbol .lt, .name "b", .symbol .lt, .name "c"].map (⟨·, 0⟩)) 9 =
    .error (.malformed 0 (.unexpectedToken "<")) := by rfl

end Expr

end AccessControl
