import AccessControl.Expr.Parsing
/-!
# Derivations

A derivation of a level is a tree whose nodes are the rules of the grammar; its tokens, from left to
right, are the sentence it derives, and the expression it builds folds every chain to the left.

What comes behind a phrase tells where it ends: `Ends n ts` says that the first of `ts` continues no
phrase of level `n` or a tighter one.

    a phrase starts with an operator before an operand, a literal, a name or "("   (`Phrase.tokens_eq`)
    two phrases of a level, each with something behind that ends it, that make up the same tokens are
    the same, and so is what is behind them                                        (`Phrase.unique`)
-/

namespace AccessControl

/-! ## Operators and literals -/

/-- The symbol of an operator. -/
def BinaryOp.symbol : BinaryOp → Symbol
  | .and => .and
  | .or => .or
  | .eq => .eq
  | .ne => .ne
  | .lt => .lt
  | .le => .le
  | .gt => .gt
  | .ge => .ge
  | .add => .plus
  | .sub => .minus
  | .mul => .star
  | .div => .slash
  | .rem => .percent

def UnaryOp.symbol : UnaryOp → Symbol
  | .not => .not
  | .neg => .minus

theorem BinaryOp.symbol_injective : Function.Injective BinaryOp.symbol := by
  intro a b h
  cases a <;> cases b <;> simp_all [symbol]

theorem UnaryOp.symbol_injective : Function.Injective UnaryOp.symbol := by
  intro a b h
  cases a <;> cases b <;> simp_all [symbol]

/-- The operators between the parts of a phrase of a level. -/
def Level.operators : Level → List BinaryOp
  | .disjunction => [.or]
  | .conjunction => [.and]
  | .comparison => [.eq, .ne, .lt, .le, .gt, .ge]
  | .sum => [.add, .sub]
  | .product => [.mul, .div, .rem]
  | .operand => []

/-- Whether a phrase of a level is a chain of any length. -/
def Level.chains : Level → Bool
  | .comparison | .operand => false
  | _ => true

theorem Level.chainOp?_eq_some_iff {level : Level} (h : level.chains = true) {t : Token}
    {op : BinaryOp} : level.chainOp? t = some op ↔ op ∈ level.operators ∧ t = .symbol op.symbol := by
  constructor
  · intro hop
    unfold chainOp? at hop
    split at hop <;> simp_all [operators, BinaryOp.symbol]
    all_goals subst hop; simp
  · rintro ⟨hop, rfl⟩
    cases level <;> cases op <;> simp_all [operators, chainOp?, BinaryOp.symbol, chains]

theorem comparisonOp?_eq_some_iff {t : Token} {op : BinaryOp} :
    comparisonOp? t = some op ↔ op ∈ Level.comparison.operators ∧ t = .symbol op.symbol := by
  constructor
  · intro hop
    unfold comparisonOp? at hop
    split at hop <;> simp_all [Level.operators, BinaryOp.symbol]
    all_goals subst hop; simp
  · rintro ⟨hop, rfl⟩
    cases op <;> simp_all [Level.operators, comparisonOp?, BinaryOp.symbol]

theorem unaryOp?_eq_some_iff {t : Token} {op : UnaryOp} :
    unaryOp? t = some op ↔ t = .symbol op.symbol := by
  constructor
  · intro hop
    unfold unaryOp? at hop
    split at hop <;> simp_all [UnaryOp.symbol]
    all_goals subst hop; simp
  · rintro rfl
    cases op <;> rfl

/-- A literal. -/
inductive Literal where
  | bool (b : Bool)
  | int (n : Int64)
  | float (x : Float)
  | str (s : String)

namespace Literal

def token : Literal → Token
  | .bool b => .bool b
  | .int n => .int n
  | .float x => .float x
  | .str s => .str s

def value : Literal → Value
  | .bool b => .bool b
  | .int n => .int n
  | .float x => .float x
  | .str s => .str s

theorem token_injective : Function.Injective token := by
  intro a b h
  cases a <;> cases b <;> simp_all [token]

theorem token_ne_name (l : Literal) (s : String) : l.token ≠ .name s := by
  cases l <;> simp [token]

theorem token_ne_symbol (l : Literal) (s : Symbol) : l.token ≠ .symbol s := by
  cases l <;> simp [token]

end Literal

theorem Token.exists_literal {t : Token} {v : Value} (h : t.literal? = some v) :
    ∃ l : Literal, l.token = t ∧ l.value = v := by
  unfold Token.literal? at h
  split at h
  · next b => exact ⟨.bool b, rfl, Option.some.inj h⟩
  · next n => exact ⟨.int n, rfl, Option.some.inj h⟩
  · next x => exact ⟨.float x, rfl, Option.some.inj h⟩
  · next s => exact ⟨.str s, rfl, Option.some.inj h⟩
  · simp at h

/-! ## Trees -/

namespace Grammar

mutual

/-- A derivation of a level. -/
inductive Phrase : Level → Type where
  /-- A part and the links behind it. -/
  | chain {level : Level} (h : level.chains = true) (first : Phrase level.next) (rest : Links level) :
    Phrase level
  | comparison (left : Phrase .sum) (tail : Tail) : Phrase .comparison
  | unary (op : UnaryOp) (operand : Phrase .operand) : Phrase .operand
  /-- A primary expression and attribute names behind it. -/
  | primary (base : Primary) (names : List String) : Phrase .operand

/-- Operators of a level, each with a part behind it. -/
inductive Links : Level → Type where
  | done {level : Level} : Links level
  | more {level : Level} (op : BinaryOp) (h : op ∈ level.operators) (part : Phrase level.next)
    (rest : Links level) : Links level

/-- What a sum is compared with. -/
inductive Tail : Type where
  | nothing
  | compare (op : BinaryOp) (h : op ∈ Level.comparison.operators) (right : Phrase .sum)
  | isIn (items : Arguments)

inductive Primary : Type where
  | literal (l : Literal)
  | field (name : String)
  | call (name : String) (args : Arguments)
  | paren (inner : Phrase .disjunction)

/-- What stands between the parentheses of a list. -/
inductive Arguments : Type where
  | nothing
  | items (items : Items)

/-- One expression or more. -/
inductive Items : Type where
  | last (e : Phrase .disjunction)
  | more (e : Phrase .disjunction) (rest : Items)

end

/-- The tokens of attribute names. -/
def attributeTokens : List String → List Token
  | [] => []
  | name :: rest => .symbol .dot :: .name name :: attributeTokens rest

mutual

/-- The tokens that a phrase derives. -/
def Phrase.tokens : {level : Level} → Phrase level → List Token
  | _, .chain _ first rest => first.tokens ++ rest.tokens
  | _, .comparison left tail => left.tokens ++ tail.tokens
  | _, .unary op operand => .symbol op.symbol :: operand.tokens
  | _, .primary base names => base.tokens ++ attributeTokens names

def Links.tokens : {level : Level} → Links level → List Token
  | _, .done => []
  | _, .more op _ part rest => .symbol op.symbol :: (part.tokens ++ rest.tokens)

def Tail.tokens : Tail → List Token
  | .nothing => []
  | .compare op _ right => .symbol op.symbol :: right.tokens
  | .isIn items => .isIn :: .symbol .leftParen :: items.tokens

def Primary.tokens : Primary → List Token
  | .literal l => [l.token]
  | .field name => [.name name]
  | .call name args => .name name :: .symbol .leftParen :: args.tokens
  | .paren inner => .symbol .leftParen :: (inner.tokens ++ [.symbol .rightParen])

/-- The tokens up to the closing parenthesis, from behind the opening one. -/
def Arguments.tokens : Arguments → List Token
  | .nothing => [.symbol .rightParen]
  | .items items => items.tokens

def Items.tokens : Items → List Token
  | .last e => e.tokens ++ [.symbol .rightParen]
  | .more e rest => e.tokens ++ .symbol .comma :: rest.tokens

end

mutual

/-- The expression that a phrase builds. -/
def Phrase.expr : {level : Level} → Phrase level → Expr
  | _, .chain _ first rest => rest.fold first.expr
  | _, .comparison left tail => tail.compared left.expr
  | _, .unary op operand => .unary op operand.expr
  | _, .primary base names => names.foldl .attr base.expr

/-- The chain behind an expression is folded to the left. -/
def Links.fold : {level : Level} → Links level → Expr → Expr
  | _, .done, left => left
  | _, .more op _ part rest, left => rest.fold (.binary op left part.expr)

def Tail.compared : Tail → Expr → Expr
  | .nothing, left => left
  | .compare op _ right, left => .binary op left right.expr
  | .isIn items, left => .isIn left items.exprs

def Primary.expr : Primary → Expr
  | .literal l => .literal l.value
  | .field name => .field name
  | .call name args => .call name args.exprs
  | .paren inner => inner.expr

def Arguments.exprs : Arguments → List Expr
  | .nothing => []
  | .items items => items.exprs

def Items.exprs : Items → List Expr
  | .last e => [e.expr]
  | .more e rest => e.expr :: rest.exprs

end

/-! ## What a phrase starts with -/

/-- Whether a phrase can start with a token. -/
def startsPhrase : Token → Bool
  | .name _ | .str _ | .int _ | .float _ | .bool _ => true
  | .symbol .not | .symbol .minus | .symbol .leftParen => true
  | _ => false

theorem startsPhrase_unary (op : UnaryOp) : startsPhrase (.symbol op.symbol) = true := by
  cases op <;> rfl

theorem startsPhrase_literal (l : Literal) : startsPhrase l.token = true := by
  cases l <;> rfl

/-- A primary expression starts with a literal, a name or a parenthesis, so with no operator. -/
theorem Primary.tokens_eq (base : Primary) :
    ∃ t rest, base.tokens = t :: rest ∧ startsPhrase t = true ∧ unaryOp? t = none := by
  cases base with
  | literal l => exact ⟨l.token, [], rfl, startsPhrase_literal l, by cases l <;> rfl⟩
  | field name => exact ⟨.name name, [], rfl, rfl, rfl⟩
  | call name args => exact ⟨.name name, _, rfl, rfl, rfl⟩
  | paren inner => exact ⟨.symbol .leftParen, _, rfl, rfl, rfl⟩

theorem Phrase.tokens_eq : {level : Level} → (phrase : Phrase level) →
    ∃ t rest, phrase.tokens = t :: rest ∧ startsPhrase t = true
  | _, .chain _ first rest => by
    obtain ⟨t, more, heq, hstarts⟩ := first.tokens_eq
    exact ⟨t, more ++ rest.tokens, by rw [Phrase.tokens, heq, List.cons_append], hstarts⟩
  | _, .comparison left tail => by
    obtain ⟨t, more, heq, hstarts⟩ := left.tokens_eq
    exact ⟨t, more ++ tail.tokens, by rw [Phrase.tokens, heq, List.cons_append], hstarts⟩
  | _, .unary op operand => ⟨.symbol op.symbol, operand.tokens, rfl, startsPhrase_unary op⟩
  | _, .primary base names => by
    obtain ⟨t, more, heq, hstarts, -⟩ := base.tokens_eq
    exact ⟨t, more ++ attributeTokens names, by rw [Phrase.tokens, heq, List.cons_append], hstarts⟩

/-- A list with an expression in it does not start with the closing parenthesis. -/
theorem Items.tokens_ne (items : Items) (us vs : List Token) :
    items.tokens ++ us ≠ .symbol .rightParen :: vs := by
  have hstart : ∃ t rest, items.tokens = t :: rest ∧ startsPhrase t = true := by
    cases items with
    | last e | more e rest =>
      obtain ⟨t, more, heq, hstarts⟩ := e.tokens_eq
      exact ⟨t, _, by rw [Items.tokens, heq, List.cons_append], hstarts⟩
  obtain ⟨t, rest, heq, hstarts⟩ := hstart
  rw [heq, List.cons_append]
  rintro ⟨⟩
  simp [startsPhrase] at hstarts

/-! ## What ends a phrase -/

/-- How loosely the phrases of a level bind. -/
def rank : Level → Nat
  | .disjunction => 5
  | .conjunction => 4
  | .comparison => 3
  | .sum => 2
  | .product => 1
  | .operand => 0

theorem rank_next {level : Level} (h : level.chains = true) : rank level = rank level.next + 1 := by
  cases level <;> first | rfl | simp [Level.chains] at h

/-- The tightest level of which a phrase can go on with a token. -/
def goesOn? : Token → Option Level
  | .symbol .dot | .symbol .leftParen => some .operand
  | .symbol .star | .symbol .slash | .symbol .percent => some .product
  | .symbol .plus | .symbol .minus => some .sum
  | .symbol .eq | .symbol .ne | .symbol .lt | .symbol .le | .symbol .gt | .symbol .ge | .isIn =>
    some .comparison
  | .symbol .and => some .conjunction
  | .symbol .or => some .disjunction
  | _ => none

theorem goesOn?_operator {level : Level} {op : BinaryOp} (h : op ∈ level.operators) :
    goesOn? (.symbol op.symbol) = some level := by
  cases level <;> cases op <;> first | rfl | simp [Level.operators] at h

/-- No phrase of a level or of a tighter one goes on with these tokens. -/
def Ends (level : Level) (ts : List Token) : Prop :=
  ∀ t ∈ ts.head?, ∀ looser ∈ goesOn? t, rank level < rank looser

theorem ends_nil (level : Level) : Ends level [] := by
  intro t ht
  simp at ht

theorem ends_cons {level : Level} {t : Token} (h : ∀ looser ∈ goesOn? t, rank level < rank looser)
    (ts : List Token) : Ends level (t :: ts) := by
  intro u hu
  rwa [← Option.some.inj hu]

/-- A comma and a closing parenthesis end every phrase. -/
theorem ends_of_none {level : Level} {t : Token} (h : goesOn? t = none) (ts : List Token) :
    Ends level (t :: ts) := by
  refine ends_cons (fun looser hlooser => ?_) ts
  rw [h] at hlooser
  simp at hlooser

theorem Ends.tighter {level other : Level} {ts : List Token} (h : Ends level ts)
    (hrank : rank other ≤ rank level) : Ends other ts := by
  intro t ht looser hlooser
  exact Nat.lt_of_le_of_lt hrank (h t ht looser hlooser)

theorem Ends.rank_lt {level looser : Level} {t : Token} {ts : List Token} (h : Ends level (t :: ts))
    (hgoes : goesOn? t = some looser) : rank level < rank looser :=
  h t rfl looser hgoes

theorem Ends.not_operator {level : Level} {op : BinaryOp} {ts : List Token}
    (h : Ends level (.symbol op.symbol :: ts)) : op ∉ level.operators := by
  intro hop
  exact Nat.lt_irrefl _ (h.rank_lt (goesOn?_operator hop))

theorem not_ends_in (ts : List Token) : ¬ Ends .comparison (.isIn :: ts) := by
  intro h
  exact Nat.lt_irrefl _ (h.rank_lt rfl)

theorem not_ends_dot (ts : List Token) : ¬ Ends .operand (.symbol .dot :: ts) := by
  intro h
  exact Nat.lt_irrefl _ (h.rank_lt rfl)

/-- The links behind a part end it, and so does what is behind a phrase without links. -/
theorem Links.ends {level : Level} (h : level.chains = true) (links : Links level) {us : List Token}
    (hu : Ends level us) : Ends level.next (links.tokens ++ us) := by
  have hrank := rank_next h
  cases links with
  | done => exact hu.tighter (by omega)
  | more op hop part rest =>
    refine ends_cons (fun looser hlooser => ?_) _
    rw [goesOn?_operator hop, Option.mem_some] at hlooser
    rw [← hlooser]
    omega

theorem Tail.ends (tail : Tail) {us : List Token} (hu : Ends .comparison us) :
    Ends .sum (tail.tokens ++ us) := by
  cases tail with
  | nothing => exact hu.tighter (by decide)
  | compare op hop right =>
    refine ends_cons (fun looser hlooser => ?_) _
    rw [goesOn?_operator hop, Option.mem_some] at hlooser
    rw [← hlooser]
    decide
  | isIn items =>
    refine ends_cons (fun looser hlooser => ?_) _
    rw [show goesOn? .isIn = some .comparison from rfl, Option.mem_some] at hlooser
    rw [← hlooser]
    decide

/-- A name in front of these tokens is no call. -/
def Uncalled (ts : List Token) : Prop := ts.head? ≠ some (.symbol .leftParen)

theorem uncalled_attributes (names : List String) {us : List Token} (hu : Ends .operand us) :
    Uncalled (attributeTokens names ++ us) := by
  intro hhead
  cases names with
  | nil =>
    have hrank := hu _ hhead .operand rfl
    exact Nat.lt_irrefl _ hrank
  | cons name rest => simp [attributeTokens] at hhead

/-! ## One derivation -/

theorem attributeTokens_unique {names others : List String} {us vs : List Token}
    (h : attributeTokens names ++ us = attributeTokens others ++ vs) (hu : Ends .operand us)
    (hv : Ends .operand vs) : names = others ∧ us = vs := by
  induction names generalizing others with
  | nil =>
    cases others with
    | nil => exact ⟨rfl, h⟩
    | cons other rest =>
      rw [show us = _ from h] at hu
      exact (not_ends_dot _ hu).elim
  | cons name more ih =>
    cases others with
    | nil =>
      rw [show vs = _ from h.symm] at hv
      exact (not_ends_dot _ hv).elim
    | cons other rest =>
      simp only [attributeTokens, List.cons_append, List.cons.injEq, Token.name.injEq, true_and] at h
      obtain ⟨hmore, hrest⟩ := ih h.2
      rw [h.1, hmore]
      exact ⟨rfl, hrest⟩

mutual

/-- **A sentence has one derivation.**  Two phrases of a level, with tokens behind them that end them,
are the same when all their tokens are. -/
theorem Phrase.unique : {level : Level} → (a b : Phrase level) → {us vs : List Token} →
    a.tokens ++ us = b.tokens ++ vs → Ends level us → Ends level vs → a = b ∧ us = vs
  | _, .chain hchains first rest, b, us, vs, h, hu, hv => by
    cases b with
    | chain _ first' rest' =>
      simp only [Phrase.tokens, List.append_assoc] at h
      obtain ⟨rfl, hrest⟩ := first.unique first' h (rest.ends hchains hu) (rest'.ends hchains hv)
      obtain ⟨rfl, hbehind⟩ := rest.unique rest' hrest hchains hu hv
      exact ⟨rfl, hbehind⟩
    | _ => simp [Level.chains] at hchains
  | _, .comparison left tail, b, us, vs, h, hu, hv => by
    cases b with
    | chain hchains => simp [Level.chains] at hchains
    | comparison left' tail' =>
      simp only [Phrase.tokens, List.append_assoc] at h
      obtain ⟨rfl, htail⟩ := left.unique left' h (tail.ends hu) (tail'.ends hv)
      obtain ⟨rfl, hbehind⟩ := tail.unique tail' htail hu hv
      exact ⟨rfl, hbehind⟩
  | _, .unary op operand, b, us, vs, h, hu, hv => by
    cases b with
    | chain hchains => simp [Level.chains] at hchains
    | unary op' operand' =>
      simp only [Phrase.tokens, List.cons_append, List.cons.injEq, Token.symbol.injEq] at h
      obtain rfl := UnaryOp.symbol_injective h.1
      obtain ⟨rfl, hbehind⟩ := operand.unique operand' h.2 hu hv
      exact ⟨rfl, hbehind⟩
    | primary base names =>
      -- the first token tells them apart
      obtain ⟨t, more, heq, -, hnone⟩ := base.tokens_eq
      simp only [Phrase.tokens, heq, List.cons_append, List.cons.injEq] at h
      rw [← h.1, unaryOp?_eq_some_iff.2 rfl] at hnone
      simp at hnone
  | _, .primary base names, b, us, vs, h, hu, hv => by
    cases b with
    | chain hchains => simp [Level.chains] at hchains
    | unary op operand =>
      obtain ⟨t, more, heq, -, hnone⟩ := base.tokens_eq
      simp only [Phrase.tokens, heq, List.cons_append, List.cons.injEq] at h
      rw [h.1, unaryOp?_eq_some_iff.2 rfl] at hnone
      simp at hnone
    | primary base' names' =>
      simp only [Phrase.tokens, List.append_assoc] at h
      obtain ⟨rfl, hnames⟩ :=
        base.unique base' h (uncalled_attributes names hu) (uncalled_attributes names' hv)
      obtain ⟨rfl, hbehind⟩ := attributeTokens_unique hnames hu hv
      exact ⟨rfl, hbehind⟩
  termination_by structural _ a => a

theorem Links.unique : {level : Level} → (a b : Links level) → {us vs : List Token} →
    a.tokens ++ us = b.tokens ++ vs → level.chains = true → Ends level us → Ends level vs →
    a = b ∧ us = vs
  | _, .done, b, us, vs, h, _, hu, _ => by
    cases b with
    | done => exact ⟨rfl, h⟩
    | more op hop part rest =>
      -- what is behind the first chain would have gone on with it
      rw [show us = _ from h] at hu
      exact absurd hop hu.not_operator
  | _, .more op hop part rest, b, us, vs, h, hchains, hu, hv => by
    cases b with
    | done =>
      rw [show vs = _ from h.symm] at hv
      exact absurd hop hv.not_operator
    | more op' hop' part' rest' =>
      simp only [Links.tokens, List.cons_append, List.append_assoc, List.cons.injEq,
        Token.symbol.injEq] at h
      obtain rfl := BinaryOp.symbol_injective h.1
      obtain ⟨rfl, hrest⟩ := part.unique part' h.2 (rest.ends hchains hu) (rest'.ends hchains hv)
      obtain ⟨rfl, hbehind⟩ := rest.unique rest' hrest hchains hu hv
      exact ⟨rfl, hbehind⟩
  termination_by structural _ a => a

theorem Tail.unique : (a b : Tail) → {us vs : List Token} → a.tokens ++ us = b.tokens ++ vs →
    Ends .comparison us → Ends .comparison vs → a = b ∧ us = vs
  | .nothing, b, us, vs, h, hu, _ => by
    cases b with
    | nothing => exact ⟨rfl, h⟩
    | compare op hop right =>
      rw [show us = _ from h] at hu
      exact absurd hop hu.not_operator
    | isIn items =>
      rw [show us = _ from h] at hu
      exact (not_ends_in _ hu).elim
  | .compare op hop right, b, us, vs, h, hu, hv => by
    cases b with
    | nothing =>
      rw [show vs = _ from h.symm] at hv
      exact absurd hop hv.not_operator
    | compare op' hop' right' =>
      simp only [Tail.tokens, List.cons_append, List.cons.injEq, Token.symbol.injEq] at h
      obtain rfl := BinaryOp.symbol_injective h.1
      obtain ⟨rfl, hbehind⟩ :=
        right.unique right' h.2 (hu.tighter (by decide)) (hv.tighter (by decide))
      exact ⟨rfl, hbehind⟩
    | isIn items => simp [Tail.tokens] at h
  | .isIn items, b, us, vs, h, _, hv => by
    cases b with
    | nothing =>
      rw [show vs = _ from h.symm] at hv
      exact (not_ends_in _ hv).elim
    | compare op' hop' right' => simp [Tail.tokens] at h
    | isIn items' =>
      simp only [Tail.tokens, List.cons_append, List.cons.injEq, true_and] at h
      obtain ⟨rfl, hbehind⟩ := items.unique items' h
      exact ⟨rfl, hbehind⟩
  termination_by structural a => a

theorem Primary.unique : (a b : Primary) → {us vs : List Token} → a.tokens ++ us = b.tokens ++ vs →
    Uncalled us → Uncalled vs → a = b ∧ us = vs
  | .literal l, b, us, vs, h, _, _ => by
    cases b with
    | literal l' =>
      simp only [Primary.tokens, List.cons_append, List.nil_append, List.cons.injEq] at h
      rw [Literal.token_injective h.1]
      exact ⟨rfl, h.2⟩
    | field name => exact absurd (List.cons.inj h).1 (l.token_ne_name name)
    | call name args => exact absurd (List.cons.inj h).1 (l.token_ne_name name)
    | paren inner => exact absurd (List.cons.inj h).1 (l.token_ne_symbol .leftParen)
  | .field name, b, us, vs, h, hu, _ => by
    cases b with
    | literal l => exact absurd (List.cons.inj h).1.symm (l.token_ne_name name)
    | field name' =>
      simp only [Primary.tokens, List.cons_append, List.nil_append, List.cons.injEq,
        Token.name.injEq] at h
      rw [h.1]
      exact ⟨rfl, h.2⟩
    | call name' args =>
      simp only [Primary.tokens, List.cons_append, List.nil_append, List.cons.injEq] at h
      rw [h.2] at hu
      exact absurd rfl hu
    | paren inner => simp [Primary.tokens] at h
  | .call name args, b, us, vs, h, _, hv => by
    cases b with
    | literal l => exact absurd (List.cons.inj h).1.symm (l.token_ne_name name)
    | field name' =>
      simp only [Primary.tokens, List.cons_append, List.nil_append, List.cons.injEq] at h
      rw [← h.2] at hv
      exact absurd rfl hv
    | call name' args' =>
      simp only [Primary.tokens, List.cons_append, List.cons.injEq, Token.name.injEq, true_and] at h
      obtain ⟨rfl, hbehind⟩ := args.unique args' h.2
      rw [h.1]
      exact ⟨rfl, hbehind⟩
    | paren inner => simp [Primary.tokens] at h
  | .paren inner, b, us, vs, h, _, _ => by
    cases b with
    | literal l => exact absurd (List.cons.inj h).1.symm (l.token_ne_symbol .leftParen)
    | paren inner' =>
      simp only [Primary.tokens, List.cons_append, List.append_assoc, List.nil_append, List.cons.injEq,
        true_and] at h
      obtain ⟨rfl, hbehind⟩ :=
        inner.unique inner' h (ends_of_none rfl us) (ends_of_none rfl vs)
      exact ⟨rfl, (List.cons.inj hbehind).2⟩
    | _ => simp [Primary.tokens] at h
  termination_by structural a => a

theorem Arguments.unique : (a b : Arguments) → {us vs : List Token} →
    a.tokens ++ us = b.tokens ++ vs → a = b ∧ us = vs
  | .nothing, b, us, vs, h => by
    cases b with
    | nothing => exact ⟨rfl, (List.cons.inj h).2⟩
    | items items => exact (items.tokens_ne vs us h.symm).elim
  | .items items, b, us, vs, h => by
    cases b with
    | nothing => exact (items.tokens_ne us vs h).elim
    | items items' =>
      obtain ⟨rfl, hbehind⟩ := items.unique items' h
      exact ⟨rfl, hbehind⟩
  termination_by structural a => a

theorem Items.unique : (a b : Items) → {us vs : List Token} → a.tokens ++ us = b.tokens ++ vs →
    a = b ∧ us = vs
  | .last e, b, us, vs, h => by
    cases b with
    | last e' =>
      simp only [Items.tokens, List.append_assoc, List.cons_append, List.nil_append] at h
      obtain ⟨rfl, hbehind⟩ := e.unique e' h (ends_of_none rfl us) (ends_of_none rfl vs)
      exact ⟨rfl, (List.cons.inj hbehind).2⟩
    | more e' rest =>
      simp only [Items.tokens, List.append_assoc, List.cons_append, List.nil_append] at h
      obtain ⟨-, hbehind⟩ := e.unique e' h (ends_of_none rfl us) (ends_of_none rfl _)
      simp at hbehind
  | .more e rest, b, us, vs, h => by
    cases b with
    | last e' =>
      simp only [Items.tokens, List.append_assoc, List.cons_append, List.nil_append] at h
      obtain ⟨-, hbehind⟩ := e.unique e' h (ends_of_none rfl _) (ends_of_none rfl vs)
      simp at hbehind
    | more e' rest' =>
      simp only [Items.tokens, List.append_assoc, List.cons_append] at h
      obtain ⟨rfl, hbehind⟩ := e.unique e' h (ends_of_none rfl _) (ends_of_none rfl _)
      obtain ⟨rfl, hlast⟩ := rest.unique rest' (List.cons.inj hbehind).2
      exact ⟨rfl, hlast⟩
  termination_by structural a => a

end

end Grammar

end AccessControl
