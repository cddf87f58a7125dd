import AccessControl.Proofs.Model.LogicalLines
/-!
# No line of a model text goes unread

In a text that is accepted, every logical line is the header of a section or defines a key of the section
of the last header, and its definition is in the model unless a line behind it defines the key again.
The lines that are in no logical line are those that are skipped, and those at the end of the text of which
every one is continued: they are dropped, whatever they say.

    ofText text = .ok m → m accounts for every logical line               (`accountsFor_of_ofText`)
    not for the lines that are continued past the end                     (`not_accountsFor_dangling`)
-/

namespace AccessControl

/-- What a model tells of a logical line between others: it is the header of a section, or its definition
is there under the section of the last header, unless a later line defines its key again. -/
def Model.AccountsFor (m : Model) (before : List (List Char)) (line : List Char)
    (after : List (List Char)) : Prop :=
  (∃ name sec, header? line = some name ∧ sectionNamed? name = some sec) ∨
  ∃ sec key value, (before.filterMap header?).getLast?.bind sectionNamed? = some sec ∧
    definition? line = some (key, value) ∧ isKeyOf sec key = true ∧
    ((∀ later ∈ after, (definition? later).map (·.1) ≠ some key) →
      m.find? sec key = some (.make sec key value))

theorem ReadsLines.accountsFor {before after : List (List Char)} {line : List Char} {m : Model}
    {sec : Option String} (h : ReadsLines ({}, none) (before ++ line :: after) (m, sec)) :
    m.AccountsFor before line after := by
  obtain ⟨s, hbefore, hline⟩ := h.split
  cases hline with
  | @cons _ t _ _ _ hstep hafter =>
    rcases Model.readLine_cases hstep with
      ⟨name, other, hheader, hname, -, -⟩ | ⟨other, key, value, hsec, hdefinition, hkey, hvalue, ht, -⟩
    · exact Or.inl ⟨name, other, hheader, hname⟩
    · refine Or.inr ⟨other, key, value, ?_, hdefinition, hkey, fun hlater => ?_⟩
      · rw [← hsec, hbefore.section_eq]
        cases (before.filterMap header?).getLast? <;> rfl
      · rw [hafter.find?_eq other hlater, ht, Model.find?_define,
          if_pos ⟨by simpa using hvalue, rfl, rfl⟩]

/-! ## Top theorem (proved from the lemmas above) -/

/-- **Every line is read.**  The lines of a text that is accepted fall into groups: skipped lines, which are
blank or comments, and logical lines, each a header or a definition that the model holds.  Behind them
there are at most lines that are continued past the end of the text, and none if the last line is not
continued. -/
theorem accountsFor_of_ofText {text : String} {m : Model} (h : Model.ofText text = .ok m) :
    ∃ groups rest, Cuts (Text.lines text.toList) groups rest ∧
      ((∀ line ∈ (Text.lines text.toList).getLast?, isContinued line = false) → rest = []) ∧
      ∀ before group after, groups = before ++ group :: after →
        ∀ line, group.text? = some line →
          m.AccountsFor (before.filterMap LineGroup.text?) line (after.filterMap LineGroup.text?) := by
  obtain ⟨groups, rest, hcut⟩ := exists_cuts (Text.lines text.toList)
  refine ⟨groups, rest, hcut, hcut.rest_eq_nil, ?_⟩
  rintro before group after rfl line hline
  obtain ⟨⟨sec, hread⟩, -, -⟩ := Model.ofText_eq_ok_iff.1 h
  rw [logicalLines, hcut.texts_eq, List.filterMap_append, List.filterMap_cons_some hline] at hread
  exact hread.accountsFor

/-- The lines of a text with a comment, a definition on two lines, and a last line that is continued. -/
def danglingLines : List String :=
  ["# who may do what", "[request_definition]", "r = sub, act", "[policy_definition]", "p = sub, act",
    "[policy_effect]", "e = some(where (p.eft == allow))", "[matchers]", "m = r.sub == p.sub \\",
    "  && r.act == p.act", "m2 = r.sub == p.sub \\"]

def danglingText : String := String.ofList (Text.join '\n' ((danglingLines ++ [""]).map String.toList))

/-- The model of the text; it has one matcher. -/
def danglingModel : Model :=
  .build [.define "r" "r" "sub, act", .define "p" "p" "sub, act",
    .define "e" "e" "some(where (p.eft == allow))", .define "m" "m" "r.sub == p.sub && r.act == p.act"]

theorem lines_danglingText : Text.lines danglingText.toList = danglingLines.map String.toList := by
  rw [danglingText, String.toList_ofList]
  decide +kernel

set_option maxRecDepth 20000 in
theorem ofText_danglingText : Model.ofText danglingText = .ok danglingModel := by
  have hread : ({} : Model).readLines none (logicalLines danglingText) = .ok danglingModel := by
    rw [logicalLines, lines_danglingText]
    rfl
  have heffects : danglingModel.checkEffects = .ok () := by rfl
  have hmissing : (requiredSections.filter fun e => !danglingModel.hasSection e.2) = [] := by rfl
  rw [Model.ofText, hread]
  dsimp only
  rw [hmissing, heffects]
  rfl

/-- The law for the text. -/
theorem accountsFor_danglingText : Model.ofText danglingText = .ok danglingModel ∧
    ∃ groups rest, Cuts (Text.lines danglingText.toList) groups rest ∧
      ∀ before group after, groups = before ++ group :: after →
        ∀ line, group.text? = some line →
          danglingModel.AccountsFor (before.filterMap LineGroup.text?) line
            (after.filterMap LineGroup.text?) := by
  obtain ⟨groups, rest, hcut, -, haccounts⟩ := accountsFor_of_ofText ofText_danglingText
  exact ⟨ofText_danglingText, groups, rest, hcut, haccounts⟩

/-- **What is dropped.**  Lines that are continued past the end of the text are no logical line: the model
has nothing of the definition that they are the start of, and the text is accepted. -/
theorem not_accountsFor_dangling :
    ¬ ∀ (text : String) (m : Model), Model.ofText text = .ok m →
      ∀ groups rest, Cuts (Text.lines text.toList) groups rest → rest ≠ [] →
        m.AccountsFor (groups.filterMap LineGroup.text?) (rest.flatMap partText) [] := by
  intro h
  let line (i : Fin 11) : List Char := (danglingLines.map String.toList)[i]
  let groups : List LineGroup :=
    .skipped (line 0) :: ([1, 2, 3, 4, 5, 6, 7].map fun i => .joined [] (line i)) ++
      [.joined [line 8] (line 9)]
  have hcut : Cuts (Text.lines danglingText.toList) groups [line 10] := by
    rw [lines_danglingText]
    exact ⟨rfl, by decide +kernel, by decide +kernel, by decide +kernel⟩
  have hdefinition : definition? ([line 10].flatMap partText) = some ("m2", "r.sub == p.sub") := by
    decide +kernel
  have hsection : ((groups.filterMap LineGroup.text?).filterMap header?).getLast?.bind sectionNamed? =
      some "m" := by decide +kernel
  rcases h danglingText danglingModel ofText_danglingText groups [line 10] hcut (by simp) with
    ⟨name, sec, hheader, -⟩ | ⟨sec, key, value, hsec, hline, -, hfind⟩
  · rw [(definition?_eq_some_iff.1 hdefinition).1] at hheader
    exact absurd hheader (Option.some_ne_none name).symm
  · obtain rfl : "m" = sec := Option.some.inj (hsection.symm.trans hsec)
    obtain ⟨rfl, rfl⟩ : "m2" = key ∧ "r.sub == p.sub" = value := by
      simpa using hdefinition.symm.trans hline
    have hnone : danglingModel.find? "m" "m2" = none := by rfl
    rw [hnone] at hfind
    exact absurd (hfind (by simp)) (by simp)

end AccessControl
