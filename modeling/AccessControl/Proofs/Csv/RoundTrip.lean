import AccessControl.Csv.Reader
import AccessControl.Csv.Writer
/-!
# Written records read back

The reader takes what the writer put out apart into the same records: fields may hold commas, quotes and
ends of lines, since those are quoted, and only the blanks around a field are lost.  A record that starts
with `#` would be taken for a comment, and a text that starts with a byte order mark loses it, so these are
the characters that the first field of a record must not start with.

The writer's text is followed field by field.  `Leads` says that characters take the reader from one state
to another without completing a record; the number of the line is of no interest, so the lemmas say that
there is one.

    s.Leads (writeField f) t with `f` as the current field of `t`      (`leads_writeField`)
    (records (write rs)).map (·.fields) = rs.map (·.map Text.trim)     (`fields_records_write`)
-/

namespace AccessControl.Csv

namespace State

/-- Characters take the reader from one state to another and complete no record. -/
def Leads (s : State) (cs : List Char) (t : State) : Prop :=
  ∀ rest, s.records (cs ++ rest) = t.records rest

theorem Leads.refl (s : State) : s.Leads [] s := fun _ => rfl

theorem Leads.trans {s t u : State} {cs ds : List Char} (h : s.Leads cs t) (h' : t.Leads ds u) :
    s.Leads (cs ++ ds) u := fun rest => by
  rw [List.append_assoc, h, h']

theorem leads_step {s t : State} {c : Char} (h : s.step c = (t, none)) : s.Leads [c] t := fun rest => by
  rw [List.singleton_append, records, h]
  rfl

theorem Leads.cons {s t u : State} {c : Char} {cs : List Char} (h : s.step c = (t, none))
    (h' : t.Leads cs u) : s.Leads (c :: cs) u :=
  (leads_step h).trans h'

/-! ## Single characters -/

@[simp] theorem place_count (s : State) (c : Char) : (s.count c).place = s.place := by
  unfold count
  split <;> rfl

@[simp] theorem fields_count (s : State) (c : Char) : (s.count c).fields = s.fields := by
  unfold count
  split <;> rfl

@[simp] theorem field_count (s : State) (c : Char) : (s.count c).field = s.field := by
  unfold count
  split <;> rfl

theorem count_of_ne {c : Char} (s : State) (h : c ≠ '\n') : s.count c = s := if_neg h

/-- A character that neither ends a field nor a record. -/
def IsPlain (c : Char) : Prop := c ≠ ',' ∧ c ≠ '\n' ∧ c ≠ '\r'

theorem stepPlain_of_isPlain {c : Char} (s : State) (h : IsPlain c) :
    s.stepPlain c = (s.put .plain c, none) := by
  obtain ⟨hcomma, hfeed, hreturn⟩ := h
  simp [stepPlain, hcomma, hfeed, hreturn]

/-- A comma ends the field, wherever it is not part of one or of a comment. -/
theorem step_comma {s : State} (hcomment : s.place ≠ .comment) (hquoted : s.place ≠ .quoted) :
    s.step ',' = (s.nextField, none) := by
  unfold step
  rw [count_of_ne s (by decide)]
  cases hplace : s.place <;> simp_all [stepField, stepPlain]

/-- A line feed ends the record that has been started. -/
theorem step_feed {s : State} (hplace : s.place = .fieldStart ∨ s.place = .plain ∨ s.place = .quote) :
    s.step '\n' = (s.count '\n').endRecord := by
  unfold step
  rcases hplace with h | h | h <;> simp [h, stepField, stepPlain]

/-! ## Fields -/

/-- A field that is being read without quotes goes on. -/
theorem leads_plain {s : State} (hplace : s.place = .plain) {cs : List Char} (h : ∀ c ∈ cs, IsPlain c) :
    s.Leads cs { s with field := cs.reverse ++ s.field } := by
  induction cs generalizing s with
  | nil => exact Leads.refl s
  | cons c cs ih =>
    have hc := h c List.mem_cons_self
    have hstep : s.step c = (s.put .plain c, none) := by
      unfold step
      rw [count_of_ne s hc.2.1]
      simp only [hplace]
      exact stepPlain_of_isPlain s hc
    have hrest := ih (s := s.put .plain c) rfl fun d hd => h d (List.mem_cons_of_mem c hd)
    have hend : { s.put .plain c with field := cs.reverse ++ c :: s.field } =
        { s with field := (c :: cs).reverse ++ s.field } := by
      simp [put, hplace]
    exact Leads.cons hstep (hend ▸ hrest)

/-- In quotes a character is read as it is, and two quotes as one. -/
theorem leads_quotedChar {s : State} (hplace : s.place = .quoted) (c : Char) :
    s.Leads (if c = '"' then ['"', '"'] else [c]) ((s.count c).put .quoted c) := by
  split
  · next hc =>
    subst hc
    have hopen : s.step '"' = ({ s with place := .quote }, none) := by
      simp [step, hplace, count]
    refine Leads.cons hopen (leads_step ?_)
    simp [step, count, put]
  · next hc =>
    refine leads_step ?_
    simp [step, hplace, hc]

/-- A field that is being read in quotes goes on. -/
theorem leads_quoted {s : State} (hplace : s.place = .quoted) (cs : List Char) :
    ∃ line, s.Leads (cs.flatMap fun c => if c = '"' then ['"', '"'] else [c])
      { s with line, field := cs.reverse ++ s.field } := by
  induction cs generalizing s with
  | nil => exact ⟨s.line, Leads.refl s⟩
  | cons c cs ih =>
    obtain ⟨line, hrest⟩ := ih (s := (s.count c).put .quoted c) rfl
    have hend : { (s.count c).put .quoted c with line, field := cs.reverse ++ c :: s.field } =
        { s with line, field := (c :: cs).reverse ++ s.field } := by
      simp only [put, count]
      split <;> simp [hplace]
    refine ⟨line, ?_⟩
    rw [List.flatMap_cons, ← hend, ← field_count s c]
    exact (leads_quotedChar hplace c).trans hrest

/-- The state after some fields: they have been read, and a separator may follow. -/
structure Took (s : State) (fs : List (List Char)) (t : State) : Prop where
  fields : t.field :: t.fields = fs.reverse.map List.reverse ++ s.fields
  not_comment : t.place ≠ .comment
  not_quoted : t.place ≠ .quoted
  /-- Nothing but one empty field can leave the reader between records. -/
  started : fs ≠ [[]] ∨ s.place = .fieldStart → t.place ≠ .outside

section

variable {s : State} (hplace : s.place = .fieldStart ∨ s.place = .outside) (hfield : s.field = [])

include hplace hfield

/-- A field in quotes is read, whatever its characters are. -/
theorem leads_quotedField (f : List Char) :
    ∃ t, s.Leads (quoted f) t ∧ s.Took [f] t ∧ t.place = .quote := by
  have hopen : s.step '"' = ({ s with place := .quoted }, none) := by
    rcases hplace with h | h <;> simp [step, h, count, stepField]
  obtain ⟨line, hbody⟩ := leads_quoted (s := { s with place := .quoted }) rfl f
  have hclose : ({ s with place := .quoted, line, field := f.reverse ++ s.field } : State).step '"' =
      ({ s with place := .quote, line, field := f.reverse ++ s.field }, none) := by
    simp [step, count]
  refine ⟨_, Leads.cons hopen (hbody.trans (leads_step hclose)), ?_, rfl⟩
  exact ⟨by simp [hfield], by simp, by simp, by simp⟩

/-- A written field is read, unless it starts a comment. -/
theorem leads_writeField {f : List Char} (hstart : s.place = .outside → f.head? ≠ some '#') :
    ∃ t, s.Leads (writeField f) t ∧ s.Took [f] t := by
  unfold writeField
  split
  · obtain ⟨t, hleads, htook, -⟩ := leads_quotedField hplace hfield f
    exact ⟨t, hleads, htook⟩
  · next hneeds =>
    have hplain : ∀ c ∈ f, IsPlain c ∧ c ≠ '"' := by
      intro c hc
      have hnot : ¬(c == ',' || c == '"' || c == '\r' || c == '\n') = true := fun h =>
        hneeds (List.any_eq_true.2 ⟨c, hc, h⟩)
      simp only [Bool.or_eq_true, beq_iff_eq, not_or] at hnot
      exact ⟨⟨hnot.1.1.1, hnot.2, hnot.1.2⟩, hnot.1.1.2⟩
    cases f with
    | nil =>
      refine ⟨s, Leads.refl s, by simp [hfield], ?_, ?_, ?_⟩ <;> rcases hplace with h | h <;> simp [h]
    | cons c cs =>
      obtain ⟨hc, hquote⟩ := hplain c List.mem_cons_self
      have hopen : s.step c = (s.put .plain c, none) := by
        unfold step
        rw [count_of_ne s hc.2.1]
        rcases hplace with h | h
        · simp [h, stepField, hquote, stepPlain_of_isPlain s hc]
        · have hmark : c ≠ '#' := by simpa using hstart h
          simp [h, stepField, hquote, hmark, hc.2.1, hc.2.2, stepPlain_of_isPlain s hc]
      have hrest := leads_plain (s := s.put .plain c) rfl fun d hd =>
        (hplain d (List.mem_cons_of_mem c hd)).1
      refine ⟨_, Leads.cons hopen hrest, ?_⟩
      exact ⟨by simp [put, hfield], by simp [put], by simp [put], by simp [put]⟩

/-- Written fields are read. -/
theorem leads_writeFields {f : List Char} (hstart : s.place = .outside → f.head? ≠ some '#')
    (fs : List (List Char)) : ∃ t, s.Leads (writeFields (f :: fs)) t ∧ s.Took (f :: fs) t := by
  induction fs generalizing s f with
  | nil => exact leads_writeField hplace hfield hstart
  | cons g fs ih =>
    obtain ⟨t, hleads, htook⟩ := leads_writeField hplace hfield hstart
    have hcomma := step_comma htook.not_comment htook.not_quoted
    obtain ⟨u, hrest, htooks⟩ := ih (s := t.nextField) (f := g) (Or.inl rfl) rfl (by simp [nextField])
    refine ⟨u, hleads.trans (Leads.cons hcomma hrest), ?_, htooks.not_comment, htooks.not_quoted,
      fun _ => htooks.started (Or.inr rfl)⟩
    rw [htooks.fields]
    show _ ++ t.field :: t.fields = _
    rw [htook.fields]
    simp

end

/-! ## Records -/

/-- Only the fields of a record of one empty field are written as nothing. -/
theorem eq_of_writeFields_nil {f : List Char} {fs : List (List Char)} (h : writeFields (f :: fs) = []) :
    f :: fs = [[]] := by
  cases fs with
  | nil =>
    have hf : writeField f = [] := h
    unfold writeField at hf
    split at hf
    · simp [quoted] at hf
    · rw [hf]
  | cons g fs => simp [writeFields] at h

/-- A written record is read, and the reader is between records again. -/
theorem records_writeRecord (line : Nat) {f : List Char} (hstart : f.head? ≠ some '#')
    (fs : List (List Char)) (rest : List Char) : ∃ (record : Record) (next : Nat),
      record.fields = (f :: fs).map (fun f => Text.trim (String.ofList f)) ∧
      ({ line, opened := line } : State).records (writeRecord (f :: fs) ++ rest) =
        record :: ({ line := next, opened := next } : State).records rest := by
  obtain ⟨t, hleads, htook, hopen⟩ : ∃ t, ({ line, opened := line } : State).Leads
      (if (writeFields (f :: fs)).isEmpty then ['"', '"'] else writeFields (f :: fs)) t ∧
        ({ line, opened := line } : State).Took (f :: fs) t ∧ t.place ≠ .outside := by
    by_cases hnil : writeFields (f :: fs) = []
    · rw [hnil, eq_of_writeFields_nil hnil]
      obtain ⟨t, hleads, htook, hplace⟩ :=
        leads_quotedField (s := { line, opened := line }) (Or.inr rfl) rfl []
      exact ⟨t, hleads, htook, by simp [hplace]⟩
    · obtain ⟨t, hleads, htook⟩ :=
        leads_writeFields (s := { line, opened := line }) (Or.inr rfl) rfl (fun _ => hstart) fs
      refine ⟨t, ?_, htook, htook.started (Or.inl ?_)⟩
      · rwa [if_neg (by simpa using hnil)]
      · intro hone
        exact hnil (hone ▸ rfl)
  have hplace : t.place = .fieldStart ∨ t.place = .plain ∨ t.place = .quote := by
    cases hplace : t.place with
    | outside => exact absurd hplace hopen
    | comment => exact absurd hplace htook.not_comment
    | quoted => exact absurd hplace htook.not_quoted
    | _ => simp
  refine ⟨(t.count '\n').record, (t.count '\n').line, ?_, ?_⟩
  · unfold record
    rw [fields_count, field_count, htook.fields]
    simp [fieldText, Function.comp_def]
  · unfold writeRecord
    dsimp only
    rw [List.append_assoc, hleads, List.singleton_append, records, step_feed hplace]
    rfl

end State

/-- Whether the first field of a record starts with neither a comment nor a byte order mark. -/
def Unmarked (fields : List String) : Prop :=
  ∃ first rest, fields = first :: rest ∧ first.toList.head? ≠ some '#' ∧
    first.toList.head? ≠ some '\ufeff'

theorem fields_records (line : Nat) {rs : List (List String)} (h : ∀ fields ∈ rs, Unmarked fields) :
    (({ line, opened := line } : State).records
      (rs.flatMap fun fields => writeRecord (fields.map String.toList))).map (·.fields) =
      rs.map (·.map Text.trim) := by
  induction rs generalizing line with
  | nil => rfl
  | cons fields rs ih =>
    obtain ⟨first, rest, rfl, hcomment, -⟩ := h fields List.mem_cons_self
    obtain ⟨record, next, hfields, hread⟩ :=
      State.records_writeRecord line hcomment (rest.map String.toList)
        (rs.flatMap fun fields => writeRecord (fields.map String.toList))
    rw [List.flatMap_cons, List.map_cons (f := String.toList), hread, List.map_cons, hfields,
      ih next fun other hother => h other (List.mem_cons_of_mem _ hother)]
    simp [Function.comp_def]

theorem dropMark_of_head {cs : List Char} (h : cs.head? ≠ some '\ufeff') : dropMark cs = cs := by
  unfold dropMark
  split
  · simp at h
  · rfl

theorem head_writeField {f : List Char} (hmark : f.head? ≠ some '\ufeff') :
    writeField f = [] ∨ ∃ c cs, writeField f = c :: cs ∧ c ≠ '\ufeff' := by
  unfold writeField
  split
  · exact Or.inr ⟨'"', _, rfl, by decide⟩
  · cases f with
    | nil => exact Or.inl rfl
    | cons c cs => exact Or.inr ⟨c, cs, rfl, by simpa using hmark⟩

theorem head_writeRecord {f : List Char} (hmark : f.head? ≠ some '\ufeff') (fs : List (List Char)) :
    ∃ c cs, writeRecord (f :: fs) = c :: cs ∧ c ≠ '\ufeff' := by
  unfold writeRecord
  cases fs with
  | nil =>
    rcases head_writeField hmark with hnil | ⟨c, cs, hcons, hc⟩
    · exact ⟨'"', _, by simp only [writeFields, hnil]; rfl, by decide⟩
    · exact ⟨c, cs ++ ['\n'], by simp [writeFields, hcons], hc⟩
  | cons g fs =>
    rcases head_writeField hmark with hnil | ⟨c, cs, hcons, hc⟩
    · exact ⟨',', _, by simp only [writeFields, hnil]; rfl, by decide⟩
    · exact ⟨c, _, by simp only [writeFields, hcons]; rfl, hc⟩

/-- Reading what was written gives the records, without the blanks around their fields. -/
theorem fields_records_write {rs : List (List String)} (h : ∀ fields ∈ rs, Unmarked fields) :
    (records (write rs)).map (·.fields) = rs.map (·.map Text.trim) := by
  unfold records write
  rw [String.toList_ofList, ← fields_records 1 h]
  cases rs with
  | nil => rfl
  | cons fields rs =>
    obtain ⟨first, rest, rfl, -, hmark⟩ := h fields List.mem_cons_self
    obtain ⟨c, cs, htext, hc⟩ := head_writeRecord hmark (rest.map String.toList)
    rw [List.flatMap_cons, List.map_cons (f := String.toList), htext, dropMark_of_head (by simpa using hc)]

/-- Only the blank in front of a field is lost. -/
example : (records (write [["p", " a,b", "#"], ["g", "", "x\r\ny"]])).map (·.fields) =
    [["p", "a,b", "#"], ["g", "", "x\r\ny"]] := by decide

end AccessControl.Csv
