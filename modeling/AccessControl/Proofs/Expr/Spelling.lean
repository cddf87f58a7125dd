import AccessControl.Expr.Portable
import AccessControl.Expr.Reference
import AccessControl.Proofs.Expr.Parsing
/-!
# Spelling expressions

An expression is spelled by its tokens with a space between any two.  Operators among the operands of
operators, and before attribute names, stand in parentheses; what else does, and how strings are quoted,
is a matter of style.

    the tokens that spell an expression are a sentence whose derivation builds it     (`Style.derives`)
    all of them are tokens of portable texts                                          (`Style.portable_tokens`)
-/

namespace AccessControl

/-! ## Expressions with a spelling -/

/-- Words that are not used as names. -/
def reservedWords : List String := ["true", "false", "in"] ++ blockedWords ++ blockedNamespaces

/-- Whether a text has the characters of a name. -/
def isIdentifier (s : String) : Bool :=
  match s.toList with
  | c :: rest => startsName c && rest.all continuesName
  | [] => false

/-- A name that a portable text can have anywhere. -/
def IsName (s : String) : Prop := isIdentifier s = true ∧ s ∉ reservedWords

instance (s : String) : Decidable (IsName s) := inferInstanceAs (Decidable (_ ∧ _))

namespace Value

/-- A boolean, an integer that is not negative, or a string. -/
def IsPlain : Value → Prop
  | .bool _ | .str _ => True
  | .int n => 0 ≤ n
  | _ => False

def literalTokens : Value → List Token
  | .bool b => [.bool b]
  | .int n => [.int n]
  | .float x => [.float x]
  | .str s => [.str s]
  | _ => []

theorem IsPlain.exists_literal {v : Value} (h : v.IsPlain) :
    ∃ l : Literal, v.literalTokens = [l.token] ∧ l.value = v := by
  cases v with
  | bool b => exact ⟨.bool b, rfl, rfl⟩
  | int n => exact ⟨.int n, rfl, rfl⟩
  | str s => exact ⟨.str s, rfl, rfl⟩
  | float x => exact h.elim
  | list items => exact h.elim
  | map entries => exact h.elim

end Value

namespace Expr

mutual

/-- All literals are plain, and all names are names. -/
def IsPlain : Expr → Prop
  | .literal v => v.IsPlain
  | .field name => IsName name
  | .attr base name => base.IsPlain ∧ IsName name
  | .unary _ operand => operand.IsPlain
  | .binary _ left right => left.IsPlain ∧ right.IsPlain
  | .isIn needle items => needle.IsPlain ∧ ArePlain items
  | .call name args => IsName name ∧ ArePlain args

def ArePlain : List Expr → Prop
  | [] => True
  | e :: rest => e.IsPlain ∧ ArePlain rest

end

/-- Whether an operator makes up an expression. -/
def isCompound : Expr → Bool
  | .unary .. | .binary .. | .isIn .. => true
  | _ => false

end Expr

/-! ## Styles -/

/-- How to spell where there is a choice. -/
structure Style where
  /-- The quote of a string. -/
  quote : String → Char
  /-- The characters of strings that have a backslash before them. -/
  escapes : Char → Bool
  /-- The operands in parentheses. -/
  operand : Expr → Bool
  /-- The items of lists in parentheses. -/
  item : Expr → Bool
  quote_isQuote : ∀ s, isQuote (quote s) = true
  escapes_quote : ∀ s, escapes (quote s) = true
  escapes_slash : escapes '\\' = true
  escapes_only : ∀ c, escapes c = true → isQuote c = true ∨ c = '\\'
  operand_compound : ∀ e : Expr, e.isCompound = true → operand e = true

/-- No more parentheses than needed, double quotes around strings. -/
def Style.sparing : Style where
  quote _ := '"'
  escapes c := isQuote c || c == '\\'
  operand := Expr.isCompound
  item _ := false
  quote_isQuote _ := rfl
  escapes_quote _ := rfl
  escapes_slash := rfl
  escapes_only c h := by simpa using h
  operand_compound _ h := h

/-- Tokens in parentheses, or as they are. -/
def enclosed (on : Bool) (ts : List Token) : List Token :=
  if on then .symbol .leftParen :: (ts ++ [.symbol .rightParen]) else ts

namespace Style

variable (style : Style)

mutual

/-- The tokens that spell an expression. -/
def tokens : Expr → List Token
  | .literal v => v.literalTokens
  | .field name => [.name name]
  | .attr base name => enclosed (style.operand base) (tokens base) ++ [.symbol .dot, .name name]
  | .unary op operand => .symbol op.symbol :: enclosed (style.operand operand) (tokens operand)
  | .binary op left right =>
    enclosed (style.operand left) (tokens left) ++
      .symbol op.symbol :: enclosed (style.operand right) (tokens right)
  | .isIn needle items =>
    enclosed (style.operand needle) (tokens needle) ++ .isIn :: .symbol .leftParen :: listTokens items
  | .call name args => .name name :: .symbol .leftParen :: listTokens args

/-- The tokens of a list from behind its opening parenthesis. -/
def listTokens : List Expr → List Token
  | [] => [.symbol .rightParen]
  | e :: rest => enclosed (style.item e) (tokens e) ++ moreTokens rest

/-- The tokens of a list from behind one of its items. -/
def moreTokens : List Expr → List Token
  | [] => [.symbol .rightParen]
  | e :: rest => .symbol .comma :: (enclosed (style.item e) (tokens e) ++ moreTokens rest)

end

/-- The characters of a string between its quotes. -/
def escaped : List Char → List Char
  | [] => []
  | c :: rest => if style.escapes c then '\\' :: c :: escaped rest else c :: escaped rest

/-- The characters of a token. -/
def write : Token → List Char
  | .str s => style.quote s :: (style.escaped s.toList ++ [style.quote s])
  | t => t.spelling.toList

/-- The text of an expression. -/
def text (e : Expr) : String := String.ofList ([' '].intercalate ((style.tokens e).map style.write))

end Style

/-! ## The sentence of a spelling -/

/-- The level whose phrases have an operator. -/
def BinaryOp.level : BinaryOp → Level
  | .or => .disjunction
  | .and => .conjunction
  | .eq | .ne | .lt | .le | .gt | .ge => .comparison
  | .add | .sub => .sum
  | .mul | .div | .rem => .product

theorem BinaryOp.mem_operators (op : BinaryOp) : op ∈ op.level.operators := by
  cases op <;> decide

theorem BinaryOp.level_cases (op : BinaryOp) :
    op.level.chains = true ∨ op.level = .comparison := by
  cases op <;> decide

namespace Grammar

/-- Tokens derive an expression. -/
def Derives (level : Level) (ts : List Token) (e : Expr) : Prop :=
  ∃ d : Phrase level, d.tokens = ts ∧ d.expr = e

/-- Tokens derive a primary expression with attribute names behind it. -/
def DerivesAttributes (ts : List Token) (e : Expr) : Prop :=
  ∃ (base : Primary) (names : List String),
    base.tokens ++ attributeTokens names = ts ∧ names.foldl .attr base.expr = e

theorem DerivesAttributes.operand {ts : List Token} {e : Expr} (h : DerivesAttributes ts e) :
    Derives .operand ts e := by
  obtain ⟨base, names, htokens, hexpr⟩ := h
  exact ⟨.primary base names, htokens, hexpr⟩

/-- A phrase of a tighter level is one of a looser level. -/
theorem Derives.looser {level : Level} {ts : List Token} {e : Expr} (h : Derives level.next ts e) :
    Derives level ts e := by
  obtain ⟨d, rfl, rfl⟩ := h
  cases level with
  | operand => exact ⟨d, rfl, rfl⟩
  | comparison => exact ⟨.comparison d .nothing, List.append_nil _, rfl⟩
  | _ => exact ⟨.chain rfl d .done, List.append_nil _, rfl⟩

theorem Derives.of_operand {ts : List Token} {e : Expr} (h : Derives .operand ts e) (level : Level) :
    Derives level ts e := by
  have hproduct : Derives .product ts e := Derives.looser h
  have hsum : Derives .sum ts e := Derives.looser hproduct
  have hcomparison : Derives .comparison ts e := Derives.looser hsum
  have hconjunction : Derives .conjunction ts e := Derives.looser hcomparison
  cases level with
  | operand => exact h
  | product => exact hproduct
  | sum => exact hsum
  | comparison => exact hcomparison
  | conjunction => exact hconjunction
  | disjunction => exact Derives.looser hconjunction

theorem Derives.disjunction {level : Level} {ts : List Token} {e : Expr} (h : Derives level ts e) :
    Derives .disjunction ts e := by
  cases level with
  | disjunction => exact h
  | conjunction => exact Derives.looser h
  | comparison => exact Derives.looser (Derives.looser h)
  | sum => exact Derives.looser (Derives.looser (Derives.looser h))
  | product => exact Derives.looser (Derives.looser (Derives.looser (Derives.looser h)))
  | operand => exact h.of_operand .disjunction

theorem DerivesAttributes.of_paren {ts : List Token} {e : Expr} (h : Derives .disjunction ts e) :
    DerivesAttributes (.symbol .leftParen :: (ts ++ [.symbol .rightParen])) e := by
  obtain ⟨d, rfl, rfl⟩ := h
  exact ⟨.paren d, [], List.append_nil _, rfl⟩

theorem attributeTokens_append (names more : List String) :
    attributeTokens (names ++ more) = attributeTokens names ++ attributeTokens more := by
  induction names with
  | nil => rfl
  | cons name rest ih => simp only [List.cons_append, attributeTokens, ih]

theorem DerivesAttributes.attr {ts : List Token} {e : Expr} (h : DerivesAttributes ts e)
    (name : String) : DerivesAttributes (ts ++ [.symbol .dot, .name name]) (.attr e name) := by
  obtain ⟨base, names, rfl, rfl⟩ := h
  refine ⟨base, names ++ [name], ?_, ?_⟩
  · rw [attributeTokens_append, List.append_assoc]
    rfl
  · rw [List.foldl_append]
    rfl

theorem Derives.unary {ts : List Token} {e : Expr} (op : UnaryOp) (h : Derives .operand ts e) :
    Derives .operand (.symbol op.symbol :: ts) (.unary op e) := by
  obtain ⟨d, rfl, rfl⟩ := h
  exact ⟨.unary op d, rfl, rfl⟩

theorem Derives.link {level : Level} (hchains : level.chains = true) {op : BinaryOp}
    (hop : op ∈ level.operators) {ts us : List Token} {a b : Expr} (ha : Derives .operand ts a)
    (hb : Derives .operand us b) : Derives level (ts ++ .symbol op.symbol :: us) (.binary op a b) := by
  obtain ⟨left, rfl, rfl⟩ := ha.of_operand level.next
  obtain ⟨right, rfl, rfl⟩ := hb.of_operand level.next
  refine ⟨.chain hchains left (.more op hop right .done), ?_, rfl⟩
  rw [Phrase.tokens, Links.tokens, Links.tokens, List.append_nil]

theorem Derives.compare {op : BinaryOp} (hop : op ∈ Level.comparison.operators) {ts us : List Token}
    {a b : Expr} (ha : Derives .operand ts a) (hb : Derives .operand us b) :
    Derives .comparison (ts ++ .symbol op.symbol :: us) (.binary op a b) := by
  obtain ⟨left, rfl, rfl⟩ := ha.of_operand .sum
  obtain ⟨right, rfl, rfl⟩ := hb.of_operand .sum
  exact ⟨.comparison left (.compare op hop right), rfl, rfl⟩

theorem Derives.binary (op : BinaryOp) {ts us : List Token} {a b : Expr} (ha : Derives .operand ts a)
    (hb : Derives .operand us b) :
    Derives .disjunction (ts ++ .symbol op.symbol :: us) (.binary op a b) := by
  have hmem := op.mem_operators
  rcases op.level_cases with hchains | hcomparison
  · exact (Derives.link hchains hmem ha hb).disjunction
  · rw [hcomparison] at hmem
    exact (Derives.compare hmem ha hb).disjunction

theorem Derives.isIn {ts : List Token} {e : Expr} (h : Derives .operand ts e) (args : Arguments) :
    Derives .disjunction (ts ++ .isIn :: .symbol .leftParen :: args.tokens) (.isIn e args.exprs) := by
  obtain ⟨needle, rfl, rfl⟩ := h.of_operand .sum
  have hcomparison : Derives .comparison (needle.tokens ++ .isIn :: .symbol .leftParen :: args.tokens)
      (.isIn needle.expr args.exprs) := ⟨.comparison needle (.isIn args), rfl, rfl⟩
  exact hcomparison.disjunction

end Grammar

open Grammar

namespace Style

variable {style : Style}

/-- The tokens of an expression derive it, and without an operator they derive an operand. -/
structure Spells (style : Style) (e : Expr) : Prop where
  whole : Derives .disjunction (style.tokens e) e
  simple : e.isCompound = false → DerivesAttributes (style.tokens e) e

theorem Spells.of_attributes {e : Expr} (h : DerivesAttributes (style.tokens e) e) : style.Spells e :=
  ⟨h.operand.disjunction, fun _ => h⟩

/-- An operand is simple, or it stands in parentheses. -/
theorem Spells.operand {e : Expr} (h : style.Spells e) :
    DerivesAttributes (enclosed (style.operand e) (style.tokens e)) e := by
  unfold enclosed
  split
  · exact .of_paren h.whole
  · next hopen =>
    have hsimple : e.isCompound = false := by
      rw [Bool.eq_false_iff]
      intro hcompound
      exact hopen (style.operand_compound e hcompound)
    exact h.simple hsimple

theorem Spells.item {e : Expr} (h : style.Spells e) :
    Derives .disjunction (enclosed (style.item e) (style.tokens e)) e := by
  unfold enclosed
  split
  · exact (DerivesAttributes.of_paren h.whole).operand.disjunction
  · exact h.whole

mutual

theorem spells : (e : Expr) → e.IsPlain → style.Spells e
  | .literal v, h => by
    obtain ⟨l, htoken, rfl⟩ := Value.IsPlain.exists_literal (by rwa [Expr.IsPlain] at h)
    exact .of_attributes ⟨.literal l, [], by rw [tokens, htoken]; rfl, rfl⟩
  | .field name, _ => .of_attributes ⟨.field name, [], rfl, rfl⟩
  | .attr base name, h => by
    rw [Expr.IsPlain] at h
    have hbase := spells base h.1
    exact .of_attributes (hbase.operand.attr name)
  | .unary op operand, h => by
    rw [Expr.IsPlain] at h
    have hoperand := spells operand h
    exact ⟨(Derives.unary op hoperand.operand.operand).disjunction, fun hsimple => by cases hsimple⟩
  | .binary op left right, h => by
    rw [Expr.IsPlain] at h
    have hleft := spells left h.1
    have hright := spells right h.2
    exact ⟨Derives.binary op hleft.operand.operand hright.operand.operand,
      fun hsimple => by cases hsimple⟩
  | .isIn needle items, h => by
    rw [Expr.IsPlain] at h
    have hneedle := spells needle h.1
    obtain ⟨args, htokens, rfl⟩ := spells_list items h.2
    refine ⟨?_, fun hsimple => by cases hsimple⟩
    rw [tokens, ← htokens]
    exact Derives.isIn hneedle.operand.operand args
  | .call name args, h => by
    rw [Expr.IsPlain] at h
    obtain ⟨args, htokens, rfl⟩ := spells_list args h.2
    exact .of_attributes ⟨.call name args, [], by rw [tokens, ← htokens]; exact List.append_nil _, rfl⟩

theorem spells_list : (es : List Expr) → Expr.ArePlain es →
    ∃ args : Arguments, args.tokens = style.listTokens es ∧ args.exprs = es
  | [], _ => ⟨.nothing, rfl, rfl⟩
  | e :: rest, h => by
    rw [Expr.ArePlain] at h
    obtain ⟨d, hd, hexpr⟩ := (spells e h.1).item
    obtain ⟨items, htokens, hexprs⟩ := spells_more d rest h.2
    exact ⟨.items items, by rw [Arguments.tokens, htokens, hd, listTokens],
      by rw [Arguments.exprs, hexprs, hexpr]⟩

theorem spells_more (first : Phrase .disjunction) : (es : List Expr) → Expr.ArePlain es →
    ∃ items : Items, items.tokens = first.tokens ++ style.moreTokens es ∧ items.exprs = first.expr :: es
  | [], _ => ⟨.last first, rfl, rfl⟩
  | e :: rest, h => by
    rw [Expr.ArePlain] at h
    obtain ⟨d, hd, hexpr⟩ := (spells e h.1).item
    obtain ⟨items, htokens, hexprs⟩ := spells_more d rest h.2
    exact ⟨.more first items, by rw [Items.tokens, htokens, hd, moreTokens],
      by rw [Items.exprs, hexprs, hexpr]⟩

end

/-- **A spelling is a sentence.** -/
theorem derives (style : Style) {e : Expr} (h : e.IsPlain) : Derives .disjunction (style.tokens e) e :=
  (spells e h).whole

end Style

/-! ## The tokens of a spelling -/

/-- A token that a portable text can have anywhere, and that has one spelling. -/
def Token.IsPortable : Token → Prop
  | .name s => IsName s
  | .int n => 0 ≤ n
  | .symbol s => s.isBlocked = false
  | .float _ => False
  | .str _ | .bool _ | .isIn => True

theorem BinaryOp.isPortable (op : BinaryOp) : (Token.symbol op.symbol).IsPortable := by
  cases op <;> rfl

theorem UnaryOp.isPortable (op : UnaryOp) : (Token.symbol op.symbol).IsPortable := by
  cases op <;> rfl

namespace Style

variable {style : Style}

theorem portable_enclosed (on : Bool) {ts : List Token} (h : ∀ t ∈ ts, t.IsPortable) :
    ∀ t ∈ enclosed on ts, t.IsPortable := by
  have hopen : (Token.symbol .leftParen).IsPortable := rfl
  have hclose : (Token.symbol .rightParen).IsPortable := rfl
  unfold enclosed
  split
  · rw [List.forall_mem_cons, List.forall_mem_append, List.forall_mem_singleton]
    exact ⟨hopen, h, hclose⟩
  · exact h

mutual

theorem portable_tokens : (e : Expr) → e.IsPlain → ∀ t ∈ style.tokens e, t.IsPortable
  | .literal v, h => by
    rw [Expr.IsPlain] at h
    rw [tokens]
    cases v with
    | int n =>
      rw [Value.literalTokens, List.forall_mem_singleton]
      exact h
    | bool b => simp [Value.literalTokens, Token.IsPortable]
    | str s => simp [Value.literalTokens, Token.IsPortable]
    | float x => exact h.elim
    | list items => exact h.elim
    | map entries => exact h.elim
  | .field name, h => by
    rw [Expr.IsPlain] at h
    rw [tokens, List.forall_mem_singleton]
    exact h
  | .attr base name, h => by
    rw [Expr.IsPlain] at h
    have hbase := portable_enclosed (style.operand base) (portable_tokens base h.1)
    have hname : (Token.name name).IsPortable := h.2
    rw [tokens, List.forall_mem_append, List.forall_mem_cons, List.forall_mem_singleton]
    exact ⟨hbase, rfl, hname⟩
  | .unary op operand, h => by
    rw [Expr.IsPlain] at h
    rw [tokens, List.forall_mem_cons]
    exact ⟨op.isPortable, portable_enclosed _ (portable_tokens operand h)⟩
  | .binary op left right, h => by
    rw [Expr.IsPlain] at h
    have hleft := portable_enclosed (style.operand left) (portable_tokens left h.1)
    have hright := portable_enclosed (style.operand right) (portable_tokens right h.2)
    rw [tokens, List.forall_mem_append, List.forall_mem_cons]
    exact ⟨hleft, op.isPortable, hright⟩
  | .isIn needle items, h => by
    rw [Expr.IsPlain] at h
    have hneedle := portable_enclosed (style.operand needle) (portable_tokens needle h.1)
    rw [tokens, List.forall_mem_append, List.forall_mem_cons, List.forall_mem_cons]
    exact ⟨hneedle, trivial, rfl, portable_list items h.2⟩
  | .call name args, h => by
    rw [Expr.IsPlain] at h
    rw [tokens, List.forall_mem_cons, List.forall_mem_cons]
    exact ⟨h.1, rfl, portable_list args h.2⟩

theorem portable_list : (es : List Expr) → Expr.ArePlain es →
    ∀ t ∈ style.listTokens es, t.IsPortable
  | [], _ => by
    rw [listTokens, List.forall_mem_singleton]
    rfl
  | e :: rest, h => by
    rw [Expr.ArePlain] at h
    rw [listTokens, List.forall_mem_append]
    exact ⟨portable_enclosed _ (portable_tokens e h.1), portable_more rest h.2⟩

theorem portable_more : (es : List Expr) → Expr.ArePlain es →
    ∀ t ∈ style.moreTokens es, t.IsPortable
  | [], _ => by
    rw [moreTokens, List.forall_mem_singleton]
    rfl
  | e :: rest, h => by
    rw [Expr.ArePlain] at h
    rw [moreTokens, List.forall_mem_cons, List.forall_mem_append]
    exact ⟨rfl, portable_enclosed _ (portable_tokens e h.1), portable_more rest h.2⟩

end

end Style

end AccessControl
