import AccessControl.Proofs.Expr.Dotted
import AccessControl.Proofs.Matcher.Spelled
/-!
# Compiling attribute chains

The text `r.sub.age` is the field `r_sub` with the attribute `age` behind it.  Any names can be attributes; but
one that a definition could have, such as `p`, is joined with the attribute behind it as if it were a
reference, and `r.sub.p.age` reads the attribute `p_age`.

    ref.first.attrs compiles to the field ref_first with the attributes that joining makes of attrs
                                                                               (`compile_dotted`)
    these need not be attrs                                                    (`not_always_compile_dotted`)
-/

namespace AccessControl

/-- The text of names with dots between them. -/
def dottedText (names : List String) : String := String.ofList (dotted names)

/-- A field with attributes behind it. -/
def attributeChain (field : String) (attrs : List String) : Expr := attrs.foldl .attr (.field field)

/-- A name with attribute names behind it derives the chain. -/
theorem derives_chain (field : String) (attrs : List String) :
    Grammar.Derives .operand (.name field :: Grammar.attributeTokens attrs) (attributeChain field attrs) :=
  ⟨.primary (.field field) attrs, rfl, rfl⟩

theorem portable_chain {field : String} {attrs : List String} (h : ∀ name ∈ field :: attrs, IsName name) :
    ∀ t ∈ Token.name field :: Grammar.attributeTokens attrs, t.IsPortable := by
  rw [List.forall_mem_cons] at h ⊢
  refine ⟨h.1, ?_⟩
  induction attrs with
  | nil => simp [Grammar.attributeTokens]
  | cons name rest ih =>
    rw [List.forall_mem_cons] at h
    rw [Grammar.attributeTokens, List.forall_mem_cons, List.forall_mem_cons]
    exact ⟨rfl, h.2.1, ih ⟨h.1, h.2.2⟩⟩

/-- A chain calls nothing. -/
theorem calls_chain (field : String) (attrs : List String) : (attributeChain field attrs).calls = [] := by
  have hfold : ∀ (attrs : List String) (base : Expr), (attrs.foldl Expr.attr base).calls = base.calls := by
    intro attrs
    induction attrs with
    | nil => exact fun _ => rfl
    | cons name rest ih => exact fun base => (ih (.attr base name)).trans (by rw [Expr.calls])
  exact (hfold attrs (.field field)).trans (by rw [Expr.calls])

theorem apart_none : Apart none := by
  intro c hc
  simp at hc

/-- A text of names reads as the chain of these names. -/
theorem ofText_dottedText {field : String} {attrs : List String}
    (h : ∀ name ∈ field :: attrs, IsName name) :
    Expr.ofText (dottedText (field :: attrs)) = .ok (attributeChain field attrs) := by
  obtain ⟨placed, hbare, htokens⟩ := tokensFrom_dotted h (show Apart [].head? from apart_none) 0
  have htext : tokens (dottedText (field :: attrs)) = .ok placed := by
    rw [List.append_nil, tokensFrom] at htokens
    rw [tokens, dottedText, String.toList_ofList, htokens]
    simp [Except.map]
  refine Expr.ofText_of_tokens htext ?_ ?_
  · rw [hbare]
    exact portable_chain h
  · rw [hbare]
    exact (derives_chain field attrs).disjunction

/-! ## Chains of references -/

section

variable {ref first : String} {attrs : List String}

theorem isName_chain (href : isReference ref = true) (hnames : ∀ name ∈ first :: attrs, IsName name) :
    ∀ name ∈ ref :: first :: attrs, IsName name :=
  List.forall_mem_cons.2 ⟨.of_isReference href, hnames⟩

theorem joinNames_chain (href : isReference ref = true) :
    joinNames (ref :: first :: attrs) = (ref ++ "_" ++ first) :: joinNames attrs := by
  rw [joinNames, if_pos href]

/-- The names that joining makes are names. -/
theorem isName_joined (href : isReference ref = true) (hnames : ∀ name ∈ first :: attrs, IsName name) :
    ∀ name ∈ (ref ++ "_" ++ first) :: joinNames attrs, IsName name := by
  rw [← joinNames_chain href]
  exact IsName.joinNames (isName_chain href hnames)

/-- Between texts that it does not touch, a chain is joined as it is alone. -/
theorem joinReferences_around (href : isReference ref = true)
    (hnames : ∀ name ∈ first :: attrs, IsName name) {before after : String} (hclosed : Closed before.toList)
    (hbefore : Apart before.toList.getLast?) (hafter : Apart after.toList.head?) :
    joinReferences (before ++ dottedText (ref :: first :: attrs) ++ after) =
      joinReferences before ++ dottedText ((ref ++ "_" ++ first) :: joinNames attrs) ++
        joinReferences after := by
  have hjoined := joinReferencesIn_dotted hclosed hbefore hafter (isName_chain href hnames)
    (List.cons_ne_nil _ _)
  rw [joinNames_chain href] at hjoined
  rw [← String.toList_inj]
  simp only [joinReferences, dottedText, String.toList_append, String.toList_ofList, List.append_assoc]
  exact hjoined

theorem joinReferences_dottedText (href : isReference ref = true)
    (hnames : ∀ name ∈ first :: attrs, IsName name) :
    joinReferences (dottedText (ref :: first :: attrs)) =
      dottedText ((ref ++ "_" ++ first) :: joinNames attrs) := by
  have hempty : joinReferences "" = "" := by cbv
  have hjoined := joinReferences_around href hnames (.plain (by simp))
    (show Apart "".toList.getLast? from apart_none) (show Apart "".toList.head? from apart_none)
  rwa [hempty, String.empty_append, String.append_empty, String.empty_append, String.append_empty] at hjoined

/-- Joining changes no length. -/
theorem byteLength_joined (href : isReference ref = true) (hnames : ∀ name ∈ first :: attrs, IsName name)
    (before : String) :
    Text.byteLength ((joinReferences before).toList ++ dotted ((ref ++ "_" ++ first) :: joinNames attrs)) =
      (before ++ dottedText (ref :: first :: attrs)).utf8ByteSize := by
  have hchain := byteLength_dots (joinReferencesIn_dots (dottedText (ref :: first :: attrs)).toList)
  have hjoined := joinReferences_dottedText href hnames
  rw [joinReferences, ← String.toList_inj, String.toList_ofList] at hjoined
  rw [hjoined, dottedText, String.toList_ofList] at hchain
  rw [Text.utf8ByteSize_eq, String.toList_append, Text.byteLength_append, Text.byteLength_append, hchain,
    joinReferences, String.toList_ofList, byteLength_dots (joinReferencesIn_dots _), dottedText,
    String.toList_ofList]

/-- The tokens of a chain stand between those of the texts around it. -/
theorem tokens_around (href : isReference ref = true) (hnames : ∀ name ∈ first :: attrs, IsName name)
    {before after : String} (hclosed : Closed before.toList) (hbefore : Apart before.toList.getLast?)
    (hafter : Apart after.toList.head?) {bs as : List PlacedToken}
    (hbs : tokens (joinReferences before) = .ok bs)
    (has : tokensFrom (before ++ dottedText (ref :: first :: attrs)).utf8ByteSize
      (joinReferences after).toList = .ok as) :
    ∃ placed, tokens (joinReferences (before ++ dottedText (ref :: first :: attrs) ++ after)) =
        .ok (bs ++ (placed ++ as)) ∧
      Expr.bare placed = .name (ref ++ "_" ++ first) :: Grammar.attributeTokens (joinNames attrs) := by
  have hlast : Apart (joinReferences before).toList.getLast? := by
    rw [joinReferences, String.toList_ofList]
    exact hbefore.of_dots (joinReferencesIn_dots _)
  have hhead : Apart (joinReferences after).toList.head? := by
    rw [joinReferences, String.toList_ofList]
    exact hafter.of_dots_head (joinReferencesIn_dots _)
  rw [← byteLength_joined href hnames] at has
  obtain ⟨placed, hbare, htokens⟩ := tokensFrom_around hlast hhead (isName_joined href hnames) hbs has
  refine ⟨placed, ?_, hbare⟩
  rw [joinReferences_around href hnames hclosed hbefore hafter, tokens]
  simpa only [dottedText, String.toList_append, String.toList_ofList, List.append_assoc] using htokens

end

/-! ## Top theorem -/

/-- **A chain of a reference compiles to the chain of the joined attributes.**  In whichever scope and whatever
was compiled before, a reference and attributes with dots between them compile to the field of the reference
with what joining makes of the attributes behind it.  These are the attributes themselves exactly when none
before the last is a name that definitions have.  In a larger text, whose literals before the chain are closed
and which goes on with no name and no dot, joining does to the chain what it does to it alone, and nothing
else; and where the texts around it have tokens, those of the chain stand between them and derive that chain
as an operand. -/
theorem compile_dotted (earlier : List (Scope × String)) (scope : Scope) {ref first : String}
    {attrs : List String} (href : isReference ref = true) (hnames : ∀ name ∈ first :: attrs, IsName name) :
    ((ProgramCache.after earlier).compile scope (dottedText (ref :: first :: attrs))).1 =
      .ok ⟨dottedText ((ref ++ "_" ++ first) :: joinNames attrs),
        attributeChain (ref ++ "_" ++ first) (joinNames attrs)⟩ ∧
    (joinNames attrs = attrs ↔ ∀ name ∈ attrs.dropLast, isReference name = false) ∧
    ∀ before after : String, Closed before.toList → Apart before.toList.getLast? →
      Apart after.toList.head? →
      joinReferences (before ++ dottedText (ref :: first :: attrs) ++ after) =
        joinReferences before ++ dottedText ((ref ++ "_" ++ first) :: joinNames attrs) ++
          joinReferences after ∧
      ∀ bs as, tokens (joinReferences before) = .ok bs →
        tokensFrom (before ++ dottedText (ref :: first :: attrs)).utf8ByteSize
          (joinReferences after).toList = .ok as →
        ∃ placed, tokens (joinReferences (before ++ dottedText (ref :: first :: attrs) ++ after)) =
            .ok (bs ++ (placed ++ as)) ∧
          Grammar.Derives .operand (Expr.bare placed)
            (attributeChain (ref ++ "_" ++ first) (joinNames attrs)) := by
  refine ⟨?_, joinNames_eq_self_iff attrs, fun before after hclosed hbefore hafter =>
    ⟨joinReferences_around href hnames hclosed hbefore hafter, fun bs as hbs has => ?_⟩⟩
  · have hjoin := joinReferences_dottedText href hnames
    have hexpr := ofText_dottedText (isName_joined href hnames)
    rw [← hjoin] at hexpr ⊢
    refine ProgramCache.compile_after earlier hexpr ?_
    rw [Scope.unknownCall?, calls_chain]
    rfl
  · obtain ⟨placed, htokens, hbare⟩ := tokens_around href hnames hclosed hbefore hafter hbs has
    exact ⟨placed, htokens, by rw [hbare]; exact derives_chain _ _⟩

/-- The attribute `r` takes the attribute `id`; the last one, `p2`, takes none.  The literal in front stays. -/
theorem compile_dotted_owner :
    isReference "p2" = true ∧ (∀ name ∈ ["owner", "r", "id", "p2"], IsName name) ∧
    ((ProgramCache.after []).compile ⟨.builtins, []⟩ (dottedText ["p2", "owner", "r", "id", "p2"])).1 =
      .ok ⟨"p2_owner.r_id.p2", .attr (.attr (.field "p2_owner") "r_id") "p2"⟩ ∧
    joinReferences ("g(\"r.a\", " ++ dottedText ["p2", "owner", "r", "id", "p2"] ++ ") && p.ok") =
      "g(\"r.a\", p2_owner.r_id.p2) && p_ok" := by
  have href : isReference "p2" = true := by decide
  have hnames : ∀ name ∈ ["owner", "r", "id", "p2"], IsName name := by decide
  obtain ⟨hcompile, -, haround⟩ := compile_dotted [] ⟨.builtins, []⟩ href hnames
  have hjoined : joinNames ["r", "id", "p2"] = ["r_id", "p2"] := by decide
  have htext : dottedText (("p2" ++ "_" ++ "owner") :: ["r_id", "p2"]) = "p2_owner.r_id.p2" := by cbv
  have hclosed : Closed "g(\"r.a\", ".toList := by
    show Closed (['g', '('] ++ '"' :: ['r', '.', 'a', '"', ',', ' '])
    exact .literal (by simp [isQuote]) rfl rfl (.plain (by simp [isQuote]))
  have hbefore : Apart "g(\"r.a\", ".toList.getLast? := by
    intro c hc
    obtain rfl : ' ' = c := Option.some.inj hc
    decide
  have hafter : Apart ") && p.ok".toList.head? := by
    intro c hc
    obtain rfl : ')' = c := Option.some.inj hc
    decide
  have hlarger := (haround _ _ hclosed hbefore hafter).1
  have hfront : joinReferences "g(\"r.a\", " = "g(\"r.a\", " := by cbv
  have hback : joinReferences ") && p.ok" = ") && p_ok" := by cbv
  rw [hjoined, htext] at hcompile hlarger
  rw [hfront, hback] at hlarger
  exact ⟨href, hnames, hcompile, hlarger.trans (by cbv)⟩

/-- An attribute that is named like a definition does not stay as it is. -/
theorem not_always_compile_dotted : ¬ ∀ (ref first : String) (attrs : List String),
    isReference ref = true → (∀ name ∈ first :: attrs, IsName name) →
    ((ProgramCache.after []).compile ⟨.builtins, []⟩ (dottedText (ref :: first :: attrs))).1.map (·.expr) =
      .ok (attributeChain (ref ++ "_" ++ first) attrs) := by
  intro hall
  have hclaimed := hall "r" "sub" ["p", "x"] (by decide) (by decide)
  have hcompiled : ((ProgramCache.after []).compile ⟨.builtins, []⟩
      (dottedText ["r", "sub", "p", "x"])).1.map (·.expr) =
      .ok (.attr (.field "r_sub") "p_x") := by cbv
  rw [hcompiled] at hclaimed
  simp [attributeChain] at hclaimed

end AccessControl
