import AccessControl.Proofs.Model.LogicalLines
import AccessControl.Proofs.Model.Reloaded
import AccessControl.Proofs.Table
import Mathlib.Data.List.Induction
/-!
# Definitions written out and read back

Definitions are written as `key = value` lines under the headers of their sections, with blank lines and
comments between them as one likes, and with the lines broken by backslashes at blanks that stand alone.
Reading such a text gives the model that the definitions build.

    a broken line is joined to the text it was broken from                (`Broken.joined`)
    reading what is written runs the definitions                          (`Writes.reads`)
    of equal keys the last value counts, at the first place               (`find?_build`, `keys_build`)
    the text is accepted as the model that the definitions build          (`ofText_written`)
-/

namespace AccessControl

/-! ## Blanks at the ends of a line -/

namespace Text

theorem dropBlanks_append {blanks : List Char} (h : ∀ c ∈ blanks, isBlank c = true) (cs : List Char) :
    dropBlanks (blanks ++ cs) = dropBlanks cs :=
  List.dropWhile_append_of_pos h

theorem dropBlanksEnd_append {blanks : List Char} (h : ∀ c ∈ blanks, isBlank c = true)
    (cs : List Char) : dropBlanksEnd (cs ++ blanks) = dropBlanksEnd cs := by
  unfold dropBlanksEnd
  rw [List.reverse_append, dropBlanks_append fun c hc => h c (List.mem_reverse.1 hc)]

/-- A text that neither starts nor ends with a blank, and is there. -/
structure Tight (cs : List Char) : Prop where
  ne_nil : cs ≠ []
  head : ∀ c ∈ cs.head?, isBlank c = false
  last : ∀ c ∈ cs.getLast?, isBlank c = false

-- the two characters that are there are looked at, not all that there can be
instance (cs : List Char) : Decidable (Tight cs) :=
  let _ (o : Option Char) : Decidable (∀ c ∈ o, isBlank c = false) := Option.decidableForallMem o
  decidable_of_iff
    (cs ≠ [] ∧ (∀ c ∈ cs.head?, isBlank c = false) ∧ ∀ c ∈ cs.getLast?, isBlank c = false)
    ⟨fun h => ⟨h.1, h.2.1, h.2.2⟩, fun h => ⟨h.ne_nil, h.head, h.last⟩⟩

theorem dropBlanks_of_head {cs : List Char} (h : ∀ c ∈ cs.head?, isBlank c = false) :
    dropBlanks cs = cs := by
  cases cs with
  | nil => rfl
  | cons c cs => exact List.dropWhile_cons_of_neg (by simp [h c rfl])

theorem dropBlanksEnd_of_last {cs : List Char} (h : ∀ c ∈ cs.getLast?, isBlank c = false) :
    dropBlanksEnd cs = cs := by
  unfold dropBlanksEnd
  rw [dropBlanks_of_head (by rwa [List.head?_reverse]), List.reverse_reverse]

theorem strip_cons_blank {c : Char} (h : isBlank c = true) (cs : List Char) :
    strip (c :: cs) = strip cs := by
  rw [strip, dropBlanks, List.dropWhile_cons_of_pos h]
  rfl

theorem strip_append_blank {cs : List Char} (hcs : ∀ c ∈ cs, isBlank c = false) {c : Char}
    (h : isBlank c = true) : strip (cs ++ [c]) = cs := by
  cases cs with
  | nil => exact strip_cons_blank h []
  | cons b cs =>
    rw [strip, dropBlanks_of_head (by simp [hcs b List.mem_cons_self]),
      dropBlanksEnd_append (by simpa using h)]
    exact dropBlanksEnd_of_last fun d hd => hcs d (List.mem_of_getLast? hd)

theorem trim_ofList (cs : List Char) : trim (String.ofList cs) = String.ofList (strip cs) := by
  rw [trim, String.toList_ofList, strip]

end Text

/-! ## Broken lines -/

/-- A text on lines that backslashes join: it is broken at blanks that stand alone, and a line counts
without the blanks at its ends. -/
inductive Broken : List Char → List (List Char) → Prop
  | whole {text line : List Char} : Text.Tight text → Text.strip line = text → Broken text [line]
  | broken {front blanks text line : List Char} {lines : List (List Char)} :
      Text.Tight front → (∀ c ∈ blanks, Text.isBlank c = true) →
      Text.strip line = front ++ blanks ++ ['\\'] → Broken text lines →
      Broken (front ++ ' ' :: text) (line :: lines)

theorem continued?_concat (body : List Char) : continued? (body ++ ['\\']) = some body := by
  simp [continued?]

theorem continued?_eq_none {cs : List Char} (h : cs.getLast? ≠ some '\\') : continued? cs = none := by
  unfold continued?
  split
  · next body hbody =>
    rw [← List.head?_reverse, hbody] at h
    exact absurd rfl h
  · rfl

namespace Broken

theorem ne_nil {text : List Char} {lines : List (List Char)} (h : Broken text lines) : text ≠ [] := by
  cases h with
  | whole htight => exact htight.ne_nil
  | broken => simp

/-- The lines are a logical line, whose text is the one that was broken. -/
theorem joined {text : List Char} {lines : List (List Char)} (h : Broken text lines)
    (hlast : text.getLast? ≠ some '\\') :
    ∃ parts last, lines = parts ++ [last] ∧ (∀ line ∈ parts, isContinued line = true) ∧
      isContinued last = false ∧ (parts ++ [last]).flatMap partText = text := by
  induction h with
  | @whole text line htight hline =>
    have hnone := continued?_eq_none hlast
    refine ⟨[], line, rfl, by simp, by rw [isContinued, hline, hnone]; rfl, ?_⟩
    rw [List.nil_append, List.flatMap_singleton, partText, hline, hnone]
  | @broken front blanks text line lines hfront hblanks hline hrest ih =>
    have htext : text.getLast? ≠ some '\\' := by
      rw [List.getLast?_append_of_ne_nil _ (List.cons_ne_nil _ _), List.getLast?_cons] at hlast
      obtain ⟨c, hc⟩ := Option.ne_none_iff_exists'.1 (mt List.getLast?_eq_none_iff.1 hrest.ne_nil)
      simpa [hc] using hlast
    obtain ⟨parts, last, rfl, hparts, hend, hjoined⟩ := ih htext
    have hsome : continued? (Text.strip line) = some (front ++ blanks) := by
      rw [hline, continued?_concat]
    refine ⟨line :: parts, last, rfl, List.forall_mem_cons.2 ⟨by rw [isContinued, hsome]; rfl, hparts⟩,
      hend, ?_⟩
    rw [List.cons_append, List.flatMap_cons, hjoined, partText, hsome]
    dsimp only
    rw [Text.dropBlanksEnd_append hblanks, Text.dropBlanksEnd_of_last hfront.last, List.append_assoc]
    rfl

/-- The first line starts as the text does. -/
theorem head?_strip {text line : List Char} {lines : List (List Char)} (h : Broken text lines)
    (hline : line ∈ lines.head?) : (Text.strip line).head? = text.head? := by
  cases h with
  | whole htight hstrip => simp_all
  | @broken front blanks _ first _ hfront _ hstrip _ =>
    obtain rfl : first = line := by simpa using hline
    obtain ⟨c, rest, rfl⟩ := List.exists_cons_of_ne_nil hfront.ne_nil
    rw [hstrip]
    rfl

/-- No line is empty. -/
theorem strip_ne_nil {text line : List Char} {lines : List (List Char)} (h : Broken text lines)
    (hline : line ∈ lines) : Text.strip line ≠ [] := by
  induction h with
  | whole htight hstrip =>
    obtain rfl := List.mem_singleton.1 hline
    exact hstrip ▸ htight.ne_nil
  | broken hfront _ hstrip _ ih =>
    rcases List.mem_cons.1 hline with rfl | hline
    · rw [hstrip]
      simp
    · exact ih hline

end Broken

/-! ## Declarations -/

/-- A definition to be written. -/
structure Declaration where
  sec : String
  key : String
  value : String

namespace Declaration

def line (d : Declaration) : List Char := d.key.toList ++ ' ' :: '=' :: ' ' :: d.value.toList

def operation (d : Declaration) : Model.Operation := .define d.sec d.key d.value

def definition (d : Declaration) : Definition := .make d.sec d.key d.value

/-- What can be written: the letter of a section with digits behind it, and a value that is there, has no
blanks at its ends, does not end in a backslash and is an effect if it has to be one. -/
structure Writable (d : Declaration) : Prop where
  sec : d.sec ∈ sectionHeaders.map (·.2)
  key : isKeyOf d.sec d.key = true
  value : d.value ≠ ""
  trimmed : Text.trim d.value = d.value
  ended : d.value.toList.getLast? ≠ some '\\'
  effect : d.sec = "e" → ∃ kind, EffectKind.ofText d.value = .ok kind

variable {d : Declaration} (h : d.Writable)

include h

theorem Writable.toList_key : ∃ c digits, d.key.toList = c :: digits ∧
    c ∈ ['r', 'p', 'g', 'e', 'm'] ∧ ∀ x ∈ digits, x.isDigit = true := by
  have hkey := h.key
  unfold isKeyOf at hkey
  rw [Bool.and_eq_true, List.isPrefixOf_iff_prefix, List.all_eq_true] at hkey
  obtain ⟨⟨digits, hkey⟩, hdigits⟩ := hkey
  rw [← hkey] at hdigits ⊢
  have hsec := h.sec
  simp only [sectionHeaders, List.map_cons, List.map_nil, List.mem_cons, List.not_mem_nil,
    or_false] at hsec
  rcases hsec with hsec | hsec | hsec | hsec | hsec <;> rw [hsec] at hdigits ⊢
  · exact ⟨'r', digits, rfl, by decide, hdigits⟩
  · exact ⟨'p', digits, rfl, by decide, hdigits⟩
  · exact ⟨'g', digits, rfl, by decide, hdigits⟩
  · exact ⟨'e', digits, rfl, by decide, hdigits⟩
  · exact ⟨'m', digits, rfl, by decide, hdigits⟩

theorem Writable.key_plain : ∀ c ∈ d.key.toList, Text.isBlank c = false ∧ c ≠ '=' := by
  obtain ⟨c, digits, hkey, hc, hdigits⟩ := h.toList_key
  rw [hkey, List.forall_mem_cons]
  refine ⟨?_, fun x hx => ⟨Text.isBlank_of_isDigit (hdigits x hx), ?_⟩⟩
  · simp only [List.mem_cons, List.not_mem_nil, or_false] at hc
    rcases hc with rfl | rfl | rfl | rfl | rfl <;> decide
  · rintro rfl
    exact absurd (hdigits '=' hx) (by decide)

/-- The line of a declaration is no header, and says its key and its value. -/
theorem Writable.definition?_line : definition? d.line = some (d.key, d.value) := by
  obtain ⟨c, digits, hkey, hc, -⟩ := h.toList_key
  have hheader : header? d.line = none := by
    rw [line, hkey, List.cons_append]
    unfold header?
    split
    · next heq =>
      obtain ⟨rfl, -⟩ := List.cons.inj heq
      exact absurd hc (by decide)
    · rfl
  have hfront : ∀ x ∈ d.key.toList ++ [' '], (x != '=') = true := by
    intro x hx
    rcases List.mem_append.1 hx with hx | hx
    · simpa using (h.key_plain x hx).2
    · obtain rfl := List.mem_singleton.1 hx
      rfl
  have hline : d.line = (d.key.toList ++ [' ']) ++ '=' :: ' ' :: d.value.toList := by
    simp [line]
  refine definition?_eq_some_iff.2 ⟨hheader, ?_⟩
  rw [keyValue?, hline, List.dropWhile_append_of_pos hfront, List.takeWhile_append_of_pos hfront,
    List.dropWhile_cons_of_neg (by decide), List.takeWhile_cons_of_neg (by decide)]
  dsimp only
  rw [List.append_nil, Text.trim_ofList, Text.trim_ofList,
    Text.strip_append_blank (fun x hx => (h.key_plain x hx).1) (by decide),
    Text.strip_cons_blank (by decide), String.ofList_toList, ← Text.trim_ofList, String.ofList_toList,
    h.trimmed]

theorem Writable.getLast?_line : d.line.getLast? ≠ some '\\' := by
  obtain ⟨c, hc⟩ : ∃ c, d.value.toList.getLast? = some c :=
    Option.ne_none_iff_exists'.1 (by simpa using h.value)
  have hlast := h.ended
  rw [hc] at hlast
  simpa [line, List.getLast?_append, List.getLast?_cons, hc] using hlast

end Declaration

/-! ## Writing -/

/-- Lines that write declarations in their order, with headers that name the sections, and with blank lines
and comments between them.  The option is the section so far. -/
inductive Writes : Option String → List Declaration → List (List Char) → Prop
  | done (sec : Option String) : Writes sec [] []
  | skip {sec : Option String} {defs : List Declaration} {line : List Char} {lines : List (List Char)} :
      isSkipped line = true → Writes sec defs lines → Writes sec defs (line :: lines)
  | header {sec : Option String} {defs : List Declaration} {name s : String} {line : List Char}
      {lines : List (List Char)} :
      (name, s) ∈ sectionHeaders → Text.strip line = '[' :: name.toList ++ [']'] →
      Writes (some s) defs lines → Writes sec defs (line :: lines)
  | declaration {d : Declaration} {defs : List Declaration} {broken lines : List (List Char)} :
      Broken d.line broken → Writes (some d.sec) defs lines →
      Writes (some d.sec) (d :: defs) (broken ++ lines)

/-- A declaration on one line. -/
theorem Writes.line {d : Declaration} {defs : List Declaration} {line : List Char}
    {lines : List (List Char)} (htight : Text.Tight d.line) (hline : Text.strip line = d.line)
    (h : Writes (some d.sec) defs lines) : Writes (some d.sec) (d :: defs) (line :: lines) :=
  .declaration (.whole htight hline) h

/-- What a header says. -/
theorem header?_of_mem {name s : String} (h : (name, s) ∈ sectionHeaders) :
    header? ('[' :: name.toList ++ [']']) = some name ∧ sectionNamed? name = some s := by
  have hall : ∀ e ∈ sectionHeaders, header? ('[' :: e.1.toList ++ [']']) = some e.1 ∧
      sectionNamed? e.1 = some e.2 := by decide +kernel
  exact hall (name, s) h

namespace Writes

variable {sec : Option String} {defs : List Declaration} {lines : List (List Char)}

theorem reads (h : Writes sec defs lines) (hdefs : ∀ d ∈ defs, d.Writable) (m : Model) (n : Nat) :
    ∃ sec', ReadsLines (m, sec) (texts (logicalLinesFrom n none lines))
      (m.run (defs.map Declaration.operation), sec') := by
  induction h generalizing m n with
  | done sec => exact ⟨sec, .nil _⟩
  | skip hskip _ ih =>
    rw [logicalLinesFrom_skipped hskip]
    exact ih hdefs m (n + 1)
  | @header sec defs name s line lines hname hline _ ih =>
    obtain ⟨hheader, hsection⟩ := header?_of_mem hname
    rw [← hline] at hheader
    have hnone : continued? (Text.strip line) = none :=
      continued?_eq_none (by rw [hline, List.getLast?_concat]; decide)
    have hfits : (LineGroup.joined [] line).Fits := by
      refine ⟨by simp, by rw [isContinued, hnone]; rfl, ?_⟩
      rintro l hl
      obtain rfl : line = l := by simpa using hl
      rw [isSkipped, hline]
      rfl
    obtain ⟨sec', hreads⟩ := ih hdefs m (n + 1)
    have hgroup := logicalLinesFrom_joined hfits n lines
    rw [List.nil_append] at hgroup
    refine ⟨sec', ?_⟩
    rw [hgroup, texts, List.map_cons]
    refine .cons (Model.readLine_header ?_ hsection) hreads
    simpa [partText, hnone] using hheader
  | @declaration d defs broken lines hbroken _ ih =>
    rw [List.forall_mem_cons] at hdefs
    obtain ⟨hd, hdefs⟩ := hdefs
    obtain ⟨c, digits, hkey, hc, -⟩ := hd.toList_key
    obtain ⟨parts, last, rfl, hparts, hlast, hjoined⟩ := hbroken.joined hd.getLast?_line
    have hfits : (LineGroup.joined parts last).Fits := by
      refine ⟨hparts, hlast, fun l hl => ?_⟩
      have hhead : (Text.strip l).head? = some c := by
        rw [hbroken.head?_strip hl, Declaration.line, hkey]
        rfl
      obtain ⟨rest, hstrip⟩ := List.head?_eq_some_iff.1 hhead
      rw [isSkipped, hstrip]
      show (c == '#' || c == ';') = false
      simp only [List.mem_cons, List.not_mem_nil, or_false] at hc
      rcases hc with rfl | rfl | rfl | rfl | rfl <;> decide
    obtain ⟨sec', hreads⟩ := ih hdefs (m.define d.sec d.key d.value).1 (n + parts.length + 1)
    refine ⟨sec', ?_⟩
    rw [List.append_assoc, List.singleton_append, logicalLinesFrom_joined hfits, texts, List.map_cons,
      hjoined]
    exact .cons (Model.readLine_definition hd.definition?_line hd.key hd.value) hreads

/-- An empty line at the end can be left out. -/
theorem of_append_nil {front : List (List Char)} (h : Writes sec defs (front ++ [[]])) :
    Writes sec defs front := by
  generalize hlines : front ++ [[]] = lines at h
  induction h generalizing front with
  | done => simp at hlines
  | @skip sec defs line lines hskip hrest ih =>
    cases front with
    | nil =>
      obtain ⟨-, rfl⟩ := List.cons.inj hlines
      exact hrest
    | cons l front =>
      obtain ⟨rfl, heq⟩ := List.cons.inj hlines
      exact .skip hskip (ih heq)
  | @header sec defs name s line lines hname hline hrest ih =>
    cases front with
    | nil =>
      obtain ⟨rfl, -⟩ := List.cons.inj hlines
      simp [Text.strip, Text.dropBlanks, Text.dropBlanksEnd] at hline
    | cons l front =>
      obtain ⟨rfl, heq⟩ := List.cons.inj hlines
      exact .header hname hline (ih heq)
  | @declaration d defs broken lines hbroken hrest ih =>
    rcases List.eq_nil_or_concat lines with rfl | ⟨rest, last, rfl⟩
    · have hmem : [] ∈ broken := by
        rw [List.append_nil] at hlines
        simp [← hlines]
      exact absurd rfl (hbroken.strip_ne_nil hmem)
    · rw [List.concat_eq_append, ← List.append_assoc] at hlines
      obtain ⟨rfl, hlast⟩ := List.append_inj' hlines rfl
      obtain rfl : [] = last := by simpa using hlast
      exact .declaration hbroken (ih (List.concat_eq_append).symm)

end Writes

/-! ## The lines of a text -/

namespace Text

variable {sep : Char}

theorem splitAt_of_not_mem {part : List Char} (h : sep ∉ part) : splitAt sep part = [part] := by
  induction part with
  | nil => rfl
  | cons c part ih =>
    rw [List.mem_cons, not_or] at h
    rw [splitAt, if_neg (Ne.symm h.1), ih h.2]

theorem splitAt_append {part : List Char} (h : sep ∉ part) (rest : List Char) :
    splitAt sep (part ++ sep :: rest) = part :: splitAt sep rest := by
  induction part with
  | nil => simp [splitAt]
  | cons c part ih =>
    rw [List.mem_cons, not_or] at h
    rw [List.cons_append, splitAt, if_neg (Ne.symm h.1), ih h.2]

/-- Parts that do not hold the separator are found again. -/
theorem splitAt_join {parts : List (List Char)} (hne : parts ≠ []) (h : ∀ part ∈ parts, sep ∉ part) :
    splitAt sep (join sep parts) = parts := by
  induction parts with
  | nil => exact absurd rfl hne
  | cons part parts ih =>
    rw [List.forall_mem_cons] at h
    cases parts with
    | nil => exact splitAt_of_not_mem h.1
    | cons next parts =>
      have hjoin : join sep (part :: next :: parts) = part ++ sep :: join sep (next :: parts) := rfl
      rw [hjoin, splitAt_append h.1, ih (List.cons_ne_nil _ _) h.2]

/-- The lines of lines that are put together, except for an empty one at the end. -/
theorem lines_join {parts : List (List Char)} (h : ∀ part ∈ parts, '\n' ∉ part) :
    lines (join '\n' parts) = parts ∨ lines (join '\n' parts) ++ [[]] = parts := by
  rcases List.eq_nil_or_concat parts with rfl | ⟨front, last, rfl⟩
  · exact Or.inl rfl
  · unfold lines
    rw [splitAt_join (by simp) h]
    dsimp only
    rw [List.concat_eq_append, List.getLast?_concat, List.dropLast_concat]
    by_cases hlast : last = []
    · exact Or.inr (by rw [hlast, if_pos rfl])
    · exact Or.inl (if_neg (by simpa using hlast))

end Text

/-! ## What declarations build -/

theorem unseen_concat {α : Type} [DecidableEq α] (seen xs : List α) (x : α) :
    unseen seen (xs ++ [x]) = if x ∈ seen then unseen seen xs else addNew (unseen seen xs) x := by
  induction xs generalizing seen with
  | nil => by_cases hx : x ∈ seen <;> simp [unseen, addNew, hx]
  | cons y xs ih =>
    rw [List.cons_append, unseen, unseen]
    by_cases hy : y ∈ seen
    · rw [if_pos hy, if_pos hy, ih]
    · rw [if_neg hy, if_neg hy, ih]
      by_cases hx : x ∈ seen
      · rw [if_pos hx, if_pos (List.mem_cons_of_mem y hx)]
      · by_cases heq : x = y
        · subst heq
          simp [hx, addNew]
        · simp only [List.mem_cons, heq, hx, or_self, false_or, if_false, addNew]
          split <;> rfl

theorem distinct_concat {α : Type} [DecidableEq α] (xs : List α) (x : α) :
    distinct (xs ++ [x]) = addNew (distinct xs) x := by
  rw [distinct, unseen_concat, if_neg List.not_mem_nil]
  rfl

namespace Model

/-- The names of the definitions of a section, in order. -/
theorem Named.map_key_definitions {m : Model} (h : m.Named) (sec : String) :
    (m.definitions sec).map (·.key) = ((m.sections.find sec).getD []).keys := by
  have hkey := h.key sec
  unfold definitions find? at *
  cases hdefs : m.sections.find sec with
  | none => rfl
  | some defs =>
    simp only [hdefs, Option.bind_some, Option.map_some, Option.getD_some] at hkey ⊢
    rw [Table.values, Table.keys, List.map_map]
    refine List.map_congr_left fun e he => ?_
    exact hkey e.1 e.2 ((Table.find_eq_some_iff (h.distinct sec defs hdefs) e.1 e.2).2 he)

theorem keys_define (m : Model) (sec key : String) {value : String} (hvalue : value ≠ "")
    (other : String) :
    (((m.define sec key value).1.sections.find other).getD []).keys =
      if sec = other then addNew ((m.sections.find other).getD []).keys key
      else ((m.sections.find other).getD []).keys := by
  unfold define
  rw [if_neg (by simpa using hvalue)]
  dsimp only
  rw [Table.find_put]
  split
  · next heq => rw [Option.getD_some, Table.keys_put, heq]
  · rfl

end Model

namespace Declaration

/-- The model that declarations build, one after the other. -/
def model (defs : List Declaration) : Model := .build (defs.map operation)

theorem named_model (defs : List Declaration) : (model defs).Named :=
  (Model.wellFormed_build _).toNamed

theorem model_concat (defs : List Declaration) (d : Declaration) :
    model (defs ++ [d]) = ((model defs).define d.sec d.key d.value).1 := by
  simp [model, Model.build, operation, Model.apply]

/-- A key keeps the place at which it comes up first. -/
theorem keys_model {defs : List Declaration} (h : ∀ d ∈ defs, d.value ≠ "") (sec : String) :
    ((model defs).definitions sec).map (·.key) =
      distinct ((defs.filter fun d => d.sec == sec).map (·.key)) := by
  rw [(named_model defs).map_key_definitions]
  induction defs using List.reverseRecOn with
  | nil => rfl
  | append_singleton defs d ih =>
    rw [List.forall_mem_append, List.forall_mem_singleton] at h
    rw [model_concat, Model.keys_define _ _ _ h.2, ih h.1, List.filter_append]
    by_cases hsec : d.sec = sec
    · rw [if_pos hsec, List.filter_cons_of_pos (by simpa using hsec), List.filter_nil, List.map_append,
        List.map_singleton, distinct_concat]
    · rw [if_neg hsec, List.filter_cons_of_neg (by simpa using hsec), List.filter_nil, List.append_nil]

/-- Of the values of a key the last one counts. -/
theorem find?_model {defs : List Declaration} (h : ∀ d ∈ defs, d.value ≠ "") (sec key : String) :
    (model defs).find? sec key =
      (defs.filter fun d => d.sec == sec && d.key == key).getLast?.map definition := by
  induction defs using List.reverseRecOn with
  | nil => rfl
  | append_singleton defs d ih =>
    rw [List.forall_mem_append, List.forall_mem_singleton] at h
    rw [model_concat, Model.find?_define, ih h.1, List.filter_append]
    by_cases hd : d.sec = sec ∧ d.key = key
    · rw [if_pos ⟨by simpa using h.2, hd⟩, List.filter_cons_of_pos (by simpa using hd), List.filter_nil,
        List.getLast?_concat]
      obtain ⟨rfl, rfl⟩ := hd
      rfl
    · rw [if_neg fun h => hd h.2, List.filter_cons_of_neg (by simpa using hd), List.filter_nil,
        List.append_nil]

theorem hasSection_model {defs : List Declaration} (h : ∀ d ∈ defs, d.value ≠ "") {sec : String}
    (hsec : ∃ d ∈ defs, d.sec = sec) : (model defs).hasSection sec = true := by
  obtain ⟨d, hd, rfl⟩ := hsec
  have hkey : d.key ∈ ((model defs).definitions d.sec).map (·.key) := by
    rw [keys_model h, mem_distinct]
    exact List.mem_map_of_mem (List.mem_filter.2 ⟨hd, by simp⟩)
  obtain ⟨found, hfound, -⟩ := List.mem_map.1 hkey
  unfold Model.hasSection
  cases hdefs : (model defs).definitions d.sec with
  | nil =>
    rw [hdefs] at hfound
    contradiction
  | cons => rfl

theorem checkEffects_model {defs : List Declaration} (h : ∀ d ∈ defs, d.Writable) :
    (model defs).checkEffects = .ok () := by
  rw [Model.checkEffects_iff]
  intro found hfound
  rw [(named_model defs).mem_definitions, find?_model fun d hd => (h d hd).value] at hfound
  obtain ⟨d, hd, rfl⟩ := Option.map_eq_some_iff.1 hfound
  obtain ⟨hmem, hsec⟩ := List.mem_filter.1 (List.mem_of_getLast? hd)
  rw [Bool.and_eq_true, beq_iff_eq] at hsec
  exact (h d hmem).effect hsec.1

end Declaration

/-! ## Top theorem (proved from the lemmas above) -/

/-- **Written and read back.**  Declarations of which one is there for each section that every model has,
written in order on lines, are read as the model that they build; in it, every section has the keys in the
order in which they came up first, each with the last value that was written for it. -/
theorem ofText_written {defs : List Declaration} {lines : List (List Char)}
    (hdefs : ∀ d ∈ defs, d.Writable) (hsections : ∀ e ∈ requiredSections, ∃ d ∈ defs, d.sec = e.2)
    (hwrites : Writes none defs lines) (hlines : ∀ line ∈ lines, '\n' ∉ line) :
    Model.ofText (String.ofList (Text.join '\n' lines)) = .ok (Declaration.model defs) ∧
      (∀ sec, ((Declaration.model defs).definitions sec).map (·.key) =
        distinct ((defs.filter fun d => d.sec == sec).map (·.key))) ∧
      ∀ sec key, (Declaration.model defs).find? sec key =
        (defs.filter fun d => d.sec == sec && d.key == key).getLast?.map Declaration.definition := by
  have hvalues : ∀ d ∈ defs, d.value ≠ "" := fun d hd => (hdefs d hd).value
  refine ⟨?_, Declaration.keys_model hvalues, Declaration.find?_model hvalues⟩
  have hread : Writes none defs (Text.lines (Text.join '\n' lines)) := by
    rcases Text.lines_join hlines with heq | heq
    · rwa [heq]
    · exact Writes.of_append_nil (by rwa [heq])
  rw [Model.ofText_eq_ok_iff, logicalLines, String.toList_ofList]
  exact ⟨hread.reads hdefs {} 1, fun e he => Declaration.hasSection_model hvalues (hsections e he),
    Declaration.checkEffects_model hdefs⟩

/-- Declarations of which the last one repeats a key. -/
def repeated : List Declaration :=
  [⟨"r", "r", "sub, act"⟩, ⟨"p", "p", "sub, act"⟩, ⟨"p", "p2", "sub # no comment"⟩,
    ⟨"e", "e", "some(where (p.eft == allow))"⟩, ⟨"m", "m", "r.sub == p.sub && r.act == p.act"⟩,
    ⟨"p", "p", "sub, act, eft"⟩]

/-- Lines that write them, with a comment, an empty line, a broken line and a header that comes again. -/
def repeatedLines : List (List Char) :=
  ["# rows", "[request_definition]", "r = sub, act", "", "[policy_definition]", "p = sub, act",
    "p2 = sub # no comment", "[policy_effect]", "e = some(where (p.eft == allow))", "[matchers]",
    "m = r.sub == p.sub \\", "    && r.act == p.act", "; again", "[policy_definition]",
    "p = sub, act, eft", ""].map String.toList

theorem writes_repeated : Writes none repeated repeatedLines := by
  have hmatcher : Broken (Declaration.line ⟨"m", "m", "r.sub == p.sub && r.act == p.act"⟩)
      ["m = r.sub == p.sub \\".toList, "    && r.act == p.act".toList] := by
    have hlast : Broken "&& r.act == p.act".toList ["    && r.act == p.act".toList] :=
      .whole (by decide +kernel) (by decide +kernel)
    have hfront : Text.Tight "m = r.sub == p.sub".toList := by decide +kernel
    have hblank : ∀ c ∈ [' '], Text.isBlank c = true := List.forall_mem_singleton.2 (by decide)
    have hline : Declaration.line ⟨"m", "m", "r.sub == p.sub && r.act == p.act"⟩ =
        "m = r.sub == p.sub".toList ++ ' ' :: "&& r.act == p.act".toList := by decide +kernel
    rw [hline]
    exact .broken hfront hblank (by decide +kernel) hlast
  refine .skip (by decide +kernel) ?_
  refine .header (by decide : ("request_definition", "r") ∈ sectionHeaders) (by decide +kernel) ?_
  refine .line (d := ⟨"r", "r", "sub, act"⟩) (by decide +kernel) (by decide +kernel) ?_
  refine .skip (by decide +kernel) ?_
  refine .header (by decide : ("policy_definition", "p") ∈ sectionHeaders) (by decide +kernel) ?_
  refine .line (d := ⟨"p", "p", "sub, act"⟩) (by decide +kernel) (by decide +kernel) ?_
  refine .line (d := ⟨"p", "p2", "sub # no comment"⟩) (by decide +kernel) (by decide +kernel) ?_
  refine .header (by decide : ("policy_effect", "e") ∈ sectionHeaders) (by decide +kernel) ?_
  refine .line (d := ⟨"e", "e", "some(where (p.eft == allow))"⟩) (by decide +kernel)
    (by decide +kernel) ?_
  refine .header (by decide : ("matchers", "m") ∈ sectionHeaders) (by decide +kernel) ?_
  refine .declaration (d := ⟨"m", "m", "r.sub == p.sub && r.act == p.act"⟩) hmatcher ?_
  refine .skip (by decide +kernel) ?_
  refine .header (by decide : ("policy_definition", "p") ∈ sectionHeaders) (by decide +kernel) ?_
  refine .line (d := ⟨"p", "p", "sub, act, eft"⟩) (by decide +kernel) (by decide +kernel) ?_
  exact .skip (by decide +kernel) (.done _)

theorem writable_repeated : ∀ d ∈ repeated, d.Writable := by
  intro d hd
  simp only [repeated, List.mem_cons, List.not_mem_nil, or_false] at hd
  rcases hd with rfl | rfl | rfl | rfl | rfl | rfl
  case inr.inr.inr.inl =>
    exact ⟨by decide, by decide, by decide, by decide +kernel, by decide +kernel, fun _ => ⟨_, rfl⟩⟩
  all_goals
    exact ⟨by decide, by decide, by decide, by decide +kernel, by decide +kernel, by simp⟩

/-- The law for the lines: the key that comes again has its last value, at its first place. -/
theorem ofText_repeatedLines :
    Model.ofText (String.ofList (Text.join '\n' repeatedLines)) = .ok (Declaration.model repeated) ∧
      ((Declaration.model repeated).definitions "p").map (·.key) = ["p", "p2"] ∧
      (Declaration.model repeated).find? "p" "p" = some (.make "p" "p" "sub, act, eft") := by
  obtain ⟨hread, hkeys, hfind⟩ := ofText_written writable_repeated
    (by simp only [requiredSections, repeated]; decide +kernel) writes_repeated (by decide +kernel)
  exact ⟨hread, by rw [hkeys]; decide +kernel, by rw [hfind]; rfl⟩

end AccessControl
