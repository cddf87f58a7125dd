import AccessControl.Matcher.Function
import AccessControl.Matcher.Program
import AccessControl.Proofs.Expr.Lexing
import AccessControl.Proofs.Table
/-!
# Compiling what was spelled

The text of an expression goes through every stage unharmed: it has no references to join, its tokens are
those that spell the expression, none of them is blocked, they are a sentence whose derivation builds the
expression, and its calls are known.  What was compiled before does not matter, in whichever scopes, for
a program at hand is the expression of its text.

    style.text e compiles to e                                         (`compile_text`)
-/

namespace AccessControl

/-! ## Portability -/

theorem blockedConstruct?_eq_none {t : Token} (h : t.IsPortable) (next : Option Token) :
    blockedConstruct? t next = none := by
  cases t with
  | name s =>
    have hword : s ∉ blockedWords := fun hmem =>
      h.2 (List.mem_append_left _ (List.mem_append_right _ hmem))
    have hnamespace : s ∉ blockedNamespaces := fun hmem => h.2 (List.mem_append_right _ hmem)
    unfold blockedConstruct?
    dsimp only
    rw [if_neg hword, if_neg hnamespace]
  | symbol s =>
    have hsymbol : s.isBlocked = false := h
    rw [blockedConstruct?, hsymbol, if_neg Bool.false_ne_true]
  | _ => rfl

theorem firstBlocked?_eq_none {ts : List Token} (h : ∀ t ∈ ts, t.IsPortable) :
    firstBlocked? ts = none := by
  induction ts with
  | nil => rfl
  | cons t rest ih =>
    rw [List.forall_mem_cons] at h
    rw [firstBlocked?, blockedConstruct?_eq_none h.1, ih h.2]

/-! ## Programs at hand -/

theorem Program.of_ofSource {scope : Scope} {source : String} {program : Program}
    (h : Program.ofSource scope source = .ok program) :
    program.source = source ∧ Expr.ofText source = .ok program.expr := by
  unfold Program.ofSource at h
  split at h
  · simp at h
  · next expr hexpr =>
    split at h
    · simp at h
    · rw [← Except.ok.inj h]
      exact ⟨rfl, hexpr⟩

namespace ProgramCache

/-- Every program at hand is the expression of its text. -/
def FromText (programs : ProgramCache) : Prop :=
  ∀ text program, programs.find text = some program →
    program.source = text ∧ Expr.ofText text = .ok program.expr

theorem FromText.compile {programs : ProgramCache} (h : programs.FromText) (scope : Scope) (text : String) :
    (programs.compile scope text).2.FromText := by
  unfold ProgramCache.compile
  dsimp only
  split
  · exact h
  · split
    · next program hok =>
      intro key other hfind
      rw [Table.find_put] at hfind
      split at hfind
      · next heq =>
        rw [← heq, ← Option.some.inj hfind]
        exact Program.of_ofSource hok
      · exact h key other hfind
    · exact h

/-- The programs at hand after texts were compiled, each in a scope of its own. -/
def after (earlier : List (Scope × String)) : ProgramCache :=
  earlier.foldl (fun programs asked => (programs.compile asked.1 asked.2).2) []

theorem read_after (earlier : List (Scope × String)) : (after earlier).FromText := by
  have hrun : ∀ (earlier : List (Scope × String)) {programs : ProgramCache}, programs.FromText →
      (earlier.foldl (fun programs asked => (programs.compile asked.1 asked.2).2) programs :
        ProgramCache).FromText := by
    intro earlier
    induction earlier with
    | nil => exact fun h => h
    | cons asked more ih => exact fun h => ih (h.compile asked.1 asked.2)
  exact hrun earlier fun text program h => by simp at h

/-- A text that is read, and calls only what is known, compiles to what is read, whatever was compiled before. -/
theorem compile_after (earlier : List (Scope × String)) {scope : Scope} {text : String} {e : Expr}
    (hexpr : Expr.ofText (joinReferences text) = .ok e) (hknown : scope.unknownCall? e = none) :
    ((after earlier).compile scope text).1 = .ok ⟨joinReferences text, e⟩ := by
  have hsource : Program.ofSource scope (joinReferences text) = .ok ⟨joinReferences text, e⟩ := by
    rw [Program.ofSource, hexpr]
    dsimp only
    rw [hknown]
  unfold ProgramCache.compile
  dsimp only
  split
  · next program hfind =>
    obtain ⟨hkey, hread⟩ := read_after earlier _ program hfind
    obtain rfl : program.expr = e := Except.ok.inj (hread.symm.trans hexpr)
    rw [← hkey]
  · rw [hsource]

end ProgramCache

/-! ## Texts that are read -/

/-- Portable tokens are read as what they derive. -/
theorem Expr.ofText_of_tokens {text : String} {placed : List PlacedToken} {e : Expr}
    (htokens : tokens text = .ok placed) (hportable : ∀ t ∈ bare placed, t.IsPortable)
    (h : Grammar.Derives .disjunction (bare placed) e) : Expr.ofText text = .ok e := by
  obtain ⟨d, hd, rfl⟩ := h
  have hchecked : checkPortable placed text = .ok () := by
    have hnone : firstBlocked? (placed.map (·.token)) = none := firstBlocked?_eq_none hportable
    rw [checkPortable, hnone]
  rw [Expr.ofText, htokens]
  dsimp only
  rw [hchecked]
  exact Expr.ofTokens_eq d hd.symm text.utf8ByteSize

/-- The text of an expression is read as the expression. -/
theorem Expr.ofText_text (style : Style) {e : Expr} (h : e.IsPlain) :
    Expr.ofText (style.text e) = .ok e := by
  have hportable : ∀ t ∈ style.tokens e, t.IsPortable := Style.portable_tokens e h
  obtain ⟨placed, hplaced, hbare⟩ := tokens_write style hportable
  exact Expr.ofText_of_tokens hplaced (by rwa [hbare]) (by rw [hbare]; exact style.derives h)

/-! ## Top theorem -/

/-- **What is spelled compiles to what it spells.**  In every style, the text of an expression with
plain literals, names that are names, and calls that are known compiles to that expression, whatever was
compiled before. -/
theorem compile_text (style : Style) (earlier : List (Scope × String)) (scope : Scope) {e : Expr}
    (hplain : e.IsPlain) (hcalls : ∀ name ∈ e.calls, scope.isCallable name = true) :
    ((ProgramCache.after earlier).compile scope (style.text e)).1 = .ok ⟨style.text e, e⟩ := by
  have hexpr : Expr.ofText (style.text e) = .ok e := Expr.ofText_text style hplain
  have hjoin : joinReferences (style.text e) = style.text e :=
    style.joinReferences_write (Style.portable_tokens e hplain)
  have hknown : scope.unknownCall? e = none := by
    rw [Scope.unknownCall?, List.find?_eq_none]
    intro name hname
    rw [hcalls name hname]
    decide
  have hcompile := ProgramCache.compile_after earlier (hjoin.symm ▸ hexpr) hknown
  rwa [hjoin] at hcompile

/-- A string with both kinds of quotes, a backslash, a reference and a blocked word stays as it is. -/
theorem compile_text_adult :
    (ProgramCache.compile [] ⟨.builtins, []⟩
      "keyMatch ( r_obj , \"it\\'s p.data \\\\ \\\"new\\\"\" ) && ( r_sub . Age >= 18 )").1.map (·.expr) =
      .ok (.binary .and
        (.call "keyMatch" [.field "r_obj", .literal (.str "it's p.data \\ \"new\"")])
        (.binary .ge (.attr (.field "r_sub") "Age") (.literal (.int 18)))) := by
  let e : Expr := .binary .and
    (.call "keyMatch" [.field "r_obj", .literal (.str "it's p.data \\ \"new\"")])
    (.binary .ge (.attr (.field "r_sub") "Age") (.literal (.int 18)))
  have htext : Style.sparing.text e =
      "keyMatch ( r_obj , \"it\\'s p.data \\\\ \\\"new\\\"\" ) && ( r_sub . Age >= 18 )" := by cbv
  have hplain : e.IsPlain := by
    simp only [e, Expr.IsPlain, Expr.ArePlain, Value.IsPlain]
    decide
  have hcalls : ∀ name ∈ e.calls, (Scope.mk .builtins []).isCallable name = true := by
    decide
  have hcompile := compile_text .sparing [] ⟨.builtins, []⟩ hplain hcalls
  rw [htext] at hcompile
  show (ProgramCache.compile (ProgramCache.after []) _ _).1.map _ = _
  rw [hcompile]
  rfl

end AccessControl
