import AccessControl.Proofs.Model.Build
/-!
# The lines of a model text

The lines of a text fall into groups: a line that is skipped, or lines that backslashes at their ends join
into one logical line.  Behind the last group there may be lines that are all continued, the last one past
the end of the text.  The logical lines of the text are those of its groups, and reading takes one after
the other: a header changes the section, a definition the model.

    every list of lines is cut into groups and a rest                     (`exists_cuts`)
    its logical lines have the texts of the groups                        (`Cuts.texts_eq`)
    m.readLines sec lines = .ok k ↔ a run of steps leads from m to k      (`readLines_iff`)
    a step is a header or a definition                                    (`readLine_cases`)
-/

namespace AccessControl

/-! ## LineGroups -/

/-- A line without the blanks at either end. -/
def Text.strip (line : List Char) : List Char := dropBlanksEnd (dropBlanks line)

/-- Whether a line stands for nothing where no line is being continued. -/
def isSkipped (line : List Char) : Bool := isIgnored (Text.strip line)

/-- Whether a line is continued on the next one. -/
def isContinued (line : List Char) : Bool := (continued? (Text.strip line)).isSome

/-- What a line adds to the logical line that it is a part of. -/
def partText (line : List Char) : List Char :=
  match continued? (Text.strip line) with
  | some body => Text.dropBlanksEnd body ++ [' ']
  | none => Text.strip line

/-- Lines that are read together. -/
inductive LineGroup where
  | skipped (line : List Char)
  | joined (parts : List (List Char)) (last : List Char)

namespace LineGroup

def lines : LineGroup → List (List Char)
  | skipped line => [line]
  | joined parts last => parts ++ [last]

/-- The text of the logical line. -/
def text? : LineGroup → Option (List Char)
  | skipped _ => none
  | joined parts last => some ((parts ++ [last]).flatMap partText)

/-- Whether the lines are read together: all but the last one are continued, and the first one is not
skipped. -/
def Fits : LineGroup → Prop
  | skipped line => isSkipped line = true
  | joined parts last => (∀ line ∈ parts, isContinued line = true) ∧ isContinued last = false ∧
      ∀ line ∈ (parts ++ [last]).head?, isSkipped line = false

instance : DecidablePred Fits
  | skipped line => inferInstanceAs (Decidable (isSkipped line = true))
  | joined _ _ => inferInstanceAs (Decidable (_ ∧ _ ∧ _))

end LineGroup

/-- Lines that are continued past the end of the text. -/
structure Dangling (lines : List (List Char)) : Prop where
  continued : ∀ line ∈ lines, isContinued line = true
  started : ∀ line ∈ lines.head?, isSkipped line = false

/-- Whether lines are cut into groups with lines behind them that are continued past the end. -/
structure Cuts (lines : List (List Char)) (groups : List LineGroup) (rest : List (List Char)) : Prop where
  lines_eq : lines = groups.flatMap LineGroup.lines ++ rest
  fits : ∀ group ∈ groups, group.Fits
  dangling : Dangling rest

/-- A text whose last line is not continued is all groups. -/
theorem Cuts.rest_eq_nil {lines : List (List Char)} {groups : List LineGroup} {rest : List (List Char)}
    (h : Cuts lines groups rest) (hlast : ∀ line ∈ lines.getLast?, isContinued line = false) :
    rest = [] := by
  by_contra hrest
  have hmem : rest.getLast hrest ∈ lines.getLast? := by
    rw [h.lines_eq, List.getLast?_append_of_ne_nil _ hrest, List.getLast?_eq_some_getLast hrest]
    rfl
  have hcontinued := h.dangling.continued _ (List.getLast_mem hrest)
  rw [hlast _ hmem] at hcontinued
  contradiction

/-- Lines are all continued, or those up to one that is not are. -/
theorem continued_or_split (lines : List (List Char)) :
    (∀ line ∈ lines, isContinued line = true) ∨ ∃ parts last after, lines = parts ++ last :: after ∧
      (∀ line ∈ parts, isContinued line = true) ∧ isContinued last = false := by
  induction lines with
  | nil => exact Or.inl (by simp)
  | cons line rest ih =>
    cases hline : isContinued line with
    | false => exact Or.inr ⟨[], line, rest, rfl, by simp, hline⟩
    | true =>
      rcases ih with hall | ⟨parts, last, after, rfl, hparts, hlast⟩
      · exact Or.inl (List.forall_mem_cons.2 ⟨hline, hall⟩)
      · exact Or.inr ⟨line :: parts, last, after, rfl, List.forall_mem_cons.2 ⟨hline, hparts⟩, hlast⟩

theorem Cuts.cons {group : LineGroup} {lines rest : List (List Char)} {groups : List LineGroup}
    (hgroup : group.Fits) (h : Cuts lines groups rest) :
    Cuts (group.lines ++ lines) (group :: groups) rest where
  lines_eq := by rw [h.lines_eq, List.flatMap_cons, List.append_assoc]
  fits := List.forall_mem_cons.2 ⟨hgroup, h.fits⟩
  dangling := h.dangling

theorem exists_cuts (lines : List (List Char)) : ∃ groups rest, Cuts lines groups rest := by
  induction hn : lines.length using Nat.strongRecOn generalizing lines with
  | ind n ih =>
    subst hn
    match lines with
    | [] => exact ⟨[], [], rfl, by simp, by simp, by simp⟩
    | line :: lines =>
      by_cases hskip : isSkipped line = true
      · obtain ⟨groups, rest, hcut⟩ := ih lines.length (by simp) lines rfl
        have hfits : (LineGroup.skipped line).Fits := hskip
        exact ⟨.skipped line :: groups, rest, hcut.cons hfits⟩
      · have hhead : ∀ l ∈ (line :: lines).head?, isSkipped l = false := by simpa using hskip
        rcases continued_or_split (line :: lines) with hall | ⟨parts, last, after, heq, hparts, hlast⟩
        · exact ⟨[], line :: lines, rfl, by simp, hall, hhead⟩
        · rw [heq] at ih hhead ⊢
          obtain ⟨groups, rest, hcut⟩ := ih after.length (by simp; omega) after rfl
          have hfits : (LineGroup.joined parts last).Fits :=
            ⟨hparts, hlast, by cases parts <;> exact hhead⟩
          refine ⟨.joined parts last :: groups, rest, ?_⟩
          rw [← List.singleton_append (l := after), ← List.append_assoc]
          exact hcut.cons hfits

/-! ## The logical lines of groups -/

theorem logicalLinesFrom_skipped {line : List Char} (h : isSkipped line = true) (n : Nat)
    (rest : List (List Char)) :
    logicalLinesFrom n none (line :: rest) = logicalLinesFrom (n + 1) none rest := by
  have hignored : isIgnored (Text.dropBlanksEnd (Text.dropBlanks line)) = true := h
  rw [logicalLinesFrom]
  simp [hignored]

/-- A line that is not skipped starts a logical line. -/
theorem logicalLinesFrom_start {line : List Char} (h : isSkipped line = false) (n : Nat)
    (rest : List (List Char)) :
    logicalLinesFrom n none (line :: rest) = logicalLinesFrom n (some ⟨n, []⟩) (line :: rest) := by
  have hignored : isIgnored (Text.dropBlanksEnd (Text.dropBlanks line)) = false := h
  rw [logicalLinesFrom, logicalLinesFrom]
  simp [hignored]

theorem logicalLinesFrom_continued {line : List Char} (h : isContinued line = true) (n : Nat)
    (start : LogicalLine) (rest : List (List Char)) :
    logicalLinesFrom n (some start) (line :: rest) =
      logicalLinesFrom (n + 1) (some ⟨start.number, start.text ++ partText line⟩) rest := by
  obtain ⟨body, hbody⟩ := Option.isSome_iff_exists.1 h
  have hbody' : continued? (Text.dropBlanksEnd (Text.dropBlanks line)) = some body := hbody
  rw [logicalLinesFrom, partText]
  simp [hbody, hbody']

theorem logicalLinesFrom_last {line : List Char} (h : isContinued line = false) (n : Nat)
    (start : LogicalLine) (rest : List (List Char)) :
    logicalLinesFrom n (some start) (line :: rest) =
      ⟨start.number, start.text ++ partText line⟩ :: logicalLinesFrom (n + 1) none rest := by
  have hbody : continued? (Text.strip line) = none := by simpa [isContinued] using h
  have hbody' : continued? (Text.dropBlanksEnd (Text.dropBlanks line)) = none := hbody
  rw [logicalLinesFrom, partText]
  simp [hbody', Text.strip]

/-- The texts of the logical lines. -/
def texts (lines : List LogicalLine) : List (List Char) := lines.map (·.text)

/-- Lines that are continued are joined to the one they lead to. -/
theorem logicalLinesFrom_started (parts : List (List Char)) {last : List Char}
    (hparts : ∀ line ∈ parts, isContinued line = true) (hlast : isContinued last = false) (n : Nat)
    (start : LogicalLine) (rest : List (List Char)) :
    logicalLinesFrom n (some start) (parts ++ last :: rest) =
      ⟨start.number, start.text ++ (parts ++ [last]).flatMap partText⟩ ::
        logicalLinesFrom (n + parts.length + 1) none rest := by
  induction parts generalizing n start with
  | nil => simp [logicalLinesFrom_last hlast]
  | cons line parts ih =>
    rw [List.forall_mem_cons] at hparts
    rw [List.cons_append, logicalLinesFrom_continued hparts.1, ih hparts.2]
    simp [Nat.add_comm, Nat.add_left_comm]

theorem logicalLinesFrom_joined {parts : List (List Char)} {last : List Char}
    (h : (LineGroup.joined parts last).Fits) (n : Nat) (rest : List (List Char)) :
    logicalLinesFrom n none (parts ++ last :: rest) =
      ⟨n, (parts ++ [last]).flatMap partText⟩ :: logicalLinesFrom (n + parts.length + 1) none rest := by
  obtain ⟨hparts, hlast, hhead⟩ := h
  have hstart : logicalLinesFrom n none (parts ++ last :: rest) =
      logicalLinesFrom n (some ⟨n, []⟩) (parts ++ last :: rest) := by
    cases parts with
    | nil => exact logicalLinesFrom_start (hhead last rfl) n rest
    | cons line parts => exact logicalLinesFrom_start (hhead line rfl) n _
  rw [hstart, logicalLinesFrom_started parts hparts hlast]
  rfl

/-- Lines that are continued past the end are dropped. -/
theorem Dangling.logicalLinesFrom_eq {lines : List (List Char)} (h : Dangling lines) (n : Nat) :
    logicalLinesFrom n none lines = [] := by
  have hdropped : ∀ (n : Nat) (start : LogicalLine), (∀ line ∈ lines, isContinued line = true) →
      logicalLinesFrom n (some start) lines = [] := by
    clear h
    induction lines with
    | nil => exact fun _ _ _ => rfl
    | cons line rest ih =>
      intro n start hcontinued
      rw [List.forall_mem_cons] at hcontinued
      rw [logicalLinesFrom_continued hcontinued.1]
      exact ih _ _ hcontinued.2
  cases lines with
  | nil => rfl
  | cons line rest =>
    rw [logicalLinesFrom_start (h.started line rfl)]
    exact hdropped _ _ h.continued

/-- The logical lines of a text have the texts of its groups. -/
theorem Cuts.texts_eq {lines : List (List Char)} {groups : List LineGroup} {rest : List (List Char)}
    (h : Cuts lines groups rest) (n : Nat) :
    texts (logicalLinesFrom n none lines) = groups.filterMap LineGroup.text? := by
  obtain ⟨rfl, hfits, hrest⟩ := h
  induction groups generalizing n with
  | nil => simp [hrest.logicalLinesFrom_eq, texts]
  | cons group groups ih =>
    rw [List.forall_mem_cons] at hfits
    rw [List.flatMap_cons, List.append_assoc]
    cases group with
    | skipped line =>
      rw [LineGroup.lines, List.singleton_append, logicalLinesFrom_skipped hfits.1, ih _ hfits.2]
      rfl
    | joined parts last =>
      rw [LineGroup.lines, List.append_assoc, List.singleton_append, logicalLinesFrom_joined hfits.1,
        texts, List.map_cons]
      exact congrArg (_ :: ·) (ih _ hfits.2)

/-! ## Reading -/

/-- The section that a header names. -/
def sectionNamed? (name : String) : Option String :=
  (sectionHeaders.find? fun e => e.1 == name).map (·.2)

/-- The key and the value of a line that is no header. -/
def definition? (line : List Char) : Option (String × String) :=
  if (header? line).isSome then none else keyValue? line

theorem definition?_eq_some_iff {line : List Char} {entry : String × String} :
    definition? line = some entry ↔ header? line = none ∧ keyValue? line = some entry := by
  unfold definition?
  cases header? line <;> simp

namespace Model

theorem define_of_ne {m : Model} {sec key value : String} (h : value ≠ "") :
    m.define sec key value = ((m.define sec key value).1, true) := by
  unfold define
  rw [if_neg (by simpa using h)]

theorem ne_of_define {m k : Model} {sec key value : String} (h : m.define sec key value = (k, true)) :
    value ≠ "" := by
  rintro rfl
  simp [define] at h

theorem readLine_header {m : Model} {sec : Option String} {line : List Char} {name s : String}
    (hheader : header? line = some name) (hname : sectionNamed? name = some s) :
    m.readLine sec line = .ok (m, some s) := by
  obtain ⟨e, he, rfl⟩ := Option.map_eq_some_iff.1 hname
  simp only [readLine, hheader, he]

theorem readLine_definition {m : Model} {sec key value : String} {line : List Char}
    (hline : definition? line = some (key, value)) (hkey : isKeyOf sec key = true) (hvalue : value ≠ "") :
    m.readLine (some sec) line = .ok ((m.define sec key value).1, some sec) := by
  obtain ⟨hheader, hline⟩ := definition?_eq_some_iff.1 hline
  rw [readLine, hheader]
  simp only [hline, hkey, if_true]
  rw [define_of_ne hvalue]

/-- What a line can do: name a section or define a key of the current one. -/
theorem readLine_cases {m k : Model} {sec sec' : Option String} {line : List Char}
    (h : m.readLine sec line = .ok (k, sec')) :
    (∃ name s, header? line = some name ∧ sectionNamed? name = some s ∧ k = m ∧ sec' = some s) ∨
    ∃ s key value, sec = some s ∧ definition? line = some (key, value) ∧ isKeyOf s key = true ∧
      value ≠ "" ∧ k = (m.define s key value).1 ∧ sec' = some s := by
  unfold readLine at h
  cases hheader : header? line with
  | some name =>
    simp only [hheader] at h
    split at h
    · next e he =>
      cases h
      exact Or.inl ⟨name, e.2, rfl, by rw [sectionNamed?, he]; rfl, rfl, rfl⟩
    · contradiction
  | none =>
    simp only [hheader] at h
    cases sec with
    | none => contradiction
    | some s =>
      dsimp only at h
      split at h
      · contradiction
      · next key value hline =>
        split at h
        · next hkey =>
          refine Or.inr ⟨s, key, value, rfl, definition?_eq_some_iff.2 ⟨hheader, hline⟩, hkey, ?_⟩
          split at h
          · next hdefine =>
            cases h
            exact ⟨ne_of_define hdefine, by rw [hdefine], rfl⟩
          · contradiction
        · contradiction

end Model

/-- A run of steps over the texts of logical lines, each taking one into the model so far and the section
of the last header. -/
inductive ReadsLines : Model × Option String → List (List Char) → Model × Option String → Prop
  | nil (s : Model × Option String) : ReadsLines s [] s
  | cons {s t u : Model × Option String} {line : List Char} {rest : List (List Char)} :
      s.1.readLine s.2 line = .ok t → ReadsLines t rest u → ReadsLines s (line :: rest) u

theorem Model.readLines_iff {m k : Model} {sec : Option String} {lines : List LogicalLine} :
    m.readLines sec lines = .ok k ↔ ∃ sec', ReadsLines (m, sec) (texts lines) (k, sec') := by
  induction lines generalizing m sec with
  | nil =>
    constructor
    · intro h
      cases h
      exact ⟨sec, .nil _⟩
    · rintro ⟨sec', h⟩
      cases h
      rfl
  | cons line rest ih =>
    rw [readLines]
    constructor
    · intro h
      split at h
      · next l s hline =>
        obtain ⟨sec', hrest⟩ := ih.1 h
        exact ⟨sec', .cons hline hrest⟩
      · contradiction
    · rintro ⟨sec', h⟩
      cases h with
      | cons hline hrest =>
        rw [hline]
        exact ih.2 ⟨sec', hrest⟩

/-- A text is accepted when its logical lines can be read, no section is missing and every effect is one. -/
theorem Model.ofText_eq_ok_iff {text : String} {m : Model} :
    ofText text = .ok m ↔ (∃ sec, ReadsLines ({}, none) (texts (logicalLines text)) (m, sec)) ∧
      (∀ e ∈ requiredSections, m.hasSection e.2 = true) ∧ m.checkEffects = .ok () := by
  rw [← readLines_iff, ofText]
  cases hread : ({} : Model).readLines none (logicalLines text) with
  | error e => simp
  | ok k =>
    have hmissing : ((requiredSections.filter fun e => !k.hasSection e.2).isEmpty = true) ↔
        ∀ e ∈ requiredSections, k.hasSection e.2 = true := by
      simp [List.filter_eq_nil_iff]
    dsimp only
    by_cases hsections : ∀ e ∈ requiredSections, k.hasSection e.2 = true
    · rw [if_pos (hmissing.2 hsections)]
      cases heffects : k.checkEffects with
      | error e =>
        simp only [reduceCtorEq, Except.ok.injEq, false_iff]
        rintro ⟨rfl, -, hok⟩
        rw [heffects] at hok
        contradiction
      | ok =>
        simp only [Except.ok.injEq]
        refine ⟨?_, And.left⟩
        rintro rfl
        exact ⟨rfl, hsections, heffects⟩
    · rw [if_neg (mt hmissing.1 hsections)]
      simp only [reduceCtorEq, Except.ok.injEq, false_iff]
      rintro ⟨rfl, h, -⟩
      exact hsections h

namespace ReadsLines

variable {s t u : Model × Option String}

theorem split {before after : List (List Char)} (h : ReadsLines s (before ++ after) u) :
    ∃ t, ReadsLines s before t ∧ ReadsLines t after u := by
  induction before generalizing s with
  | nil => exact ⟨s, .nil s, h⟩
  | cons line before ih =>
    cases h with
    | cons hline hrest =>
      obtain ⟨t, hbefore, hafter⟩ := ih hrest
      exact ⟨t, .cons hline hbefore, hafter⟩

/-- The section is that of the last header. -/
theorem section_eq {lines : List (List Char)} (h : ReadsLines s lines t) :
    t.2 = ((lines.filterMap header?).getLast?.map sectionNamed?).getD s.2 := by
  induction h with
  | nil => rfl
  | @cons s t u line rest hline _ ih =>
    rw [ih]
    rcases Model.readLine_cases hline with
      ⟨name, sec, hheader, hname, -, hsec⟩ | ⟨sec, key, value, hs, hline, -, -, -, hsec⟩
    · rw [List.filterMap_cons_some hheader, List.getLast?_cons, hsec, ← hname]
      cases (rest.filterMap header?).getLast? <;> rfl
    · rw [List.filterMap_cons_none (definition?_eq_some_iff.1 hline).1, hsec, hs]

/-- A definition stays until its key is defined again. -/
theorem find?_eq {lines : List (List Char)} (h : ReadsLines s lines t) (sec : String) {key : String}
    (hkey : ∀ line ∈ lines, (definition? line).map (·.1) ≠ some key) :
    t.1.find? sec key = s.1.find? sec key := by
  induction h with
  | nil => rfl
  | cons hline _ ih =>
    rw [List.forall_mem_cons] at hkey
    rw [ih hkey.2]
    rcases Model.readLine_cases hline with
      ⟨_, _, -, -, hmodel, -⟩ | ⟨_, other, _, -, hdefinition, -, -, hmodel, -⟩
    · rw [hmodel]
    · have hne : other ≠ key := by
        rintro rfl
        exact hkey.1 (by rw [hdefinition]; rfl)
      rw [hmodel, Model.find?_define, if_neg (by rintro ⟨-, -, h⟩; exact hne h)]

end ReadsLines

end AccessControl
