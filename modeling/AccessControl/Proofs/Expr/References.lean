import AccessControl.Expr.Reference
import Mathlib.Data.List.Chain
import Mathlib.Data.List.TakeWhile
/-!
# Joining references

Joining the references of a text leaves none to join: the underscore that is put behind `r1` is a
character of names, so neither `r1` nor what follows it is read as a reference again, and literals are
cut out of the joined text where they were cut out of the text.

    joinUnquoted b (joinUnquoted b cs) = joinUnquoted b cs             (`joinUnquoted_idem`)
    no name right before a dot → joinUnquoted b cs = cs                (`Loose.joinUnquoted_eq`)
    joinReferences (joinReferences text) = joinReferences text         (`joinReferences_idem`)
-/

namespace AccessControl

/-! ## One reference -/

/-- A reference is a letter and digits with a dot behind them. -/
theorem referenceAt?_eq_some_iff {cs name after : List Char} :
    referenceAt? cs = some (name, after) ↔ ∃ c digits, (c = 'r' ∨ c = 'p') ∧
      (∀ d ∈ digits, d.isDigit = true) ∧ name = c :: digits ∧ cs = c :: digits ++ '.' :: after := by
  constructor
  · intro h
    unfold referenceAt? at h
    split at h
    · next c rest =>
      split at h
      · next hletter =>
        split at h
        · next more hdot =>
          simp only [Option.some.injEq, Prod.mk.injEq] at h
          obtain ⟨rfl, rfl⟩ := h
          refine ⟨c, _, by simpa using hletter, fun d hd => List.mem_takeWhile_imp hd, rfl, ?_⟩
          have hsplit := List.takeWhile_append_dropWhile (p := Char.isDigit) (l := rest)
          rw [hdot] at hsplit
          rw [List.cons_append, hsplit]
        · simp at h
      · simp at h
    · simp at h
  · rintro ⟨c, digits, hletter, hdigits, rfl, rfl⟩
    have htake : (digits ++ '.' :: after).takeWhile Char.isDigit = digits := by
      rw [List.takeWhile_append_of_pos hdigits]
      simp [List.takeWhile]
    have hdrop : (digits ++ '.' :: after).dropWhile Char.isDigit = '.' :: after := by
      rw [List.dropWhile_append_of_pos hdigits]
      simp [List.dropWhile]
    rw [List.cons_append, referenceAt?, if_pos (by simpa using hletter), hdrop, htake]
    rfl

theorem isNameChar_of_isDigit {c : Char} (h : c.isDigit = true) : isNameChar c = true := by
  simp [isNameChar, Char.isAlphanum, h]

theorem isNameChar_of_letter {c : Char} (h : c = 'r' ∨ c = 'p') : isNameChar c = true := by
  rcases h with rfl | rfl <;> rfl

/-! ## Texts without literals -/

theorem joinUnquoted_of_none {b : Bool} {c : Char} {rest : List Char}
    (h : b = true → referenceAt? (c :: rest) = none) :
    joinUnquoted b (c :: rest) = c :: joinUnquoted (!isNameChar c) rest := by
  rw [joinUnquoted]
  split
  · next hfound =>
    split at hfound
    · next hb => simp [h hb] at hfound
    · simp at hfound
  · rfl

theorem joinUnquoted_false (c : Char) (rest : List Char) :
    joinUnquoted false (c :: rest) = c :: joinUnquoted (!isNameChar c) rest :=
  joinUnquoted_of_none fun h => by simp at h

theorem joinUnquoted_of_some {cs name after : List Char} (h : referenceAt? cs = some (name, after)) :
    joinUnquoted true cs = name ++ '_' :: joinUnquoted false after := by
  cases cs with
  | nil => simp [referenceAt?] at h
  | cons c rest =>
    rw [joinUnquoted]
    split
    · next hfound =>
      rw [if_pos rfl, h, Option.some.injEq, Prod.mk.injEq] at hfound
      rw [hfound.1, hfound.2]
    · next hfound =>
      rw [if_pos rfl, h] at hfound
      simp at hfound

/-- Behind a character of a name no reference starts before another character does. -/
theorem joinUnquoted_names {names : List Char} (h : ∀ c ∈ names, isNameChar c = true)
    (rest : List Char) : joinUnquoted false (names ++ rest) = names ++ joinUnquoted false rest := by
  induction names with
  | nil => rfl
  | cons c more ih =>
    rw [List.forall_mem_cons] at h
    rw [List.cons_append, joinUnquoted_false, h.1, Bool.not_true, ih h.2, List.cons_append]

/-- Joining keeps the first character of a text. -/
theorem head?_joinUnquoted (b : Bool) (cs : List Char) : (joinUnquoted b cs).head? = cs.head? := by
  cases cs with
  | nil => simp [joinUnquoted]
  | cons c rest =>
    by_cases hnone : b = true → referenceAt? (c :: rest) = none
    · rw [joinUnquoted_of_none hnone]
      rfl
    · rw [Classical.not_imp] at hnone
      obtain ⟨rfl, hsome⟩ := hnone
      obtain ⟨⟨name, after⟩, hfound⟩ := Option.ne_none_iff_exists'.1 hsome
      obtain ⟨d, digits, -, -, hname, hcs⟩ := referenceAt?_eq_some_iff.1 hfound
      rw [joinUnquoted_of_some hfound, hname]
      exact congrArg some (List.cons.inj hcs).1.symm

/-- What is no reference in a text is none in the joined text. -/
theorem referenceAt?_join_eq_none {c : Char} {rest : List Char}
    (h : referenceAt? (c :: rest) = none) :
    referenceAt? (c :: joinUnquoted (!isNameChar c) rest) = none := by
  rw [Option.eq_none_iff_forall_ne_some]
  rintro ⟨name, after⟩ hfound
  obtain ⟨d, digits, hletter, hdigits, -, hcs⟩ := referenceAt?_eq_some_iff.1 hfound
  obtain ⟨rfl, hrest⟩ := List.cons.inj hcs
  rw [isNameChar_of_letter hletter, Bool.not_true] at hrest
  -- the digits of the joined text, and the dot behind them, stand in the text as well
  have hsame : ∀ (digits cs : List Char), (∀ d ∈ digits, d.isDigit = true) →
      joinUnquoted false cs = digits ++ '.' :: after → ∃ more, cs = digits ++ '.' :: more := by
    intro digits
    induction digits with
    | nil =>
      intro cs _ hcs
      have hhead := head?_joinUnquoted false cs
      rw [hcs] at hhead
      cases cs with
      | nil => simp at hhead
      | cons d more =>
        obtain rfl : '.' = d := Option.some.inj hhead
        exact ⟨more, rfl⟩
    | cons d digits ih =>
      intro cs hdigits hcs
      rw [List.forall_mem_cons] at hdigits
      cases cs with
      | nil => simp [joinUnquoted] at hcs
      | cons d' more =>
        rw [joinUnquoted_false] at hcs
        obtain ⟨rfl, htail⟩ := List.cons.inj hcs
        rw [isNameChar_of_isDigit hdigits.1, Bool.not_true] at htail
        obtain ⟨last, hlast⟩ := ih more hdigits.2 htail
        exact ⟨last, by rw [hlast]; rfl⟩
  obtain ⟨more, hmore⟩ := hsame digits rest hdigits hrest
  have hthere : referenceAt? (c :: rest) = some (c :: digits, more) :=
    referenceAt?_eq_some_iff.2 ⟨c, digits, hletter, hdigits, rfl, by rw [hmore]; rfl⟩
  rw [h] at hthere
  simp at hthere

/-- A joined reference is no reference: an underscore stands where the dot was. -/
theorem referenceAt?_joined {c : Char} {digits rest : List Char}
    (hdigits : ∀ d ∈ digits, d.isDigit = true) : referenceAt? (c :: digits ++ '_' :: rest) = none := by
  have hdrop : (digits ++ '_' :: rest).dropWhile Char.isDigit = '_' :: rest := by
    rw [List.dropWhile_append_of_pos hdigits]
    simp [List.dropWhile]
  rw [List.cons_append, referenceAt?, hdrop]
  split <;> rfl

theorem joinUnquoted_idem (b : Bool) (cs : List Char) :
    joinUnquoted b (joinUnquoted b cs) = joinUnquoted b cs := by
  fun_induction joinUnquoted b cs with
  | case1 b => rw [joinUnquoted]
  | case2 b c rest name after hfound ih =>
    have hreference : referenceAt? (c :: rest) = some (name, after) := by
      split at hfound
      · exact hfound
      · simp at hfound
    obtain ⟨d, digits, hletter, hdigits, rfl, -⟩ := referenceAt?_eq_some_iff.1 hreference
    have hnames : ∀ e ∈ digits, isNameChar e = true := fun e he => isNameChar_of_isDigit (hdigits e he)
    calc joinUnquoted b (d :: digits ++ '_' :: joinUnquoted false after)
        = d :: joinUnquoted false (digits ++ '_' :: joinUnquoted false after) := by
          have hnone : referenceAt? (d :: digits ++ '_' :: joinUnquoted false after) = none :=
            referenceAt?_joined hdigits
          rw [List.cons_append] at hnone ⊢
          rw [joinUnquoted_of_none fun _ => hnone, isNameChar_of_letter hletter, Bool.not_true]
      _ = d :: digits ++ joinUnquoted false ('_' :: joinUnquoted false after) := by
          rw [joinUnquoted_names hnames, List.cons_append]
      _ = d :: digits ++ '_' :: joinUnquoted false after := by
          rw [joinUnquoted_false, show (!isNameChar '_') = false from rfl, ih]
  | case3 b c rest hfound ih =>
    have hnone : b = true → referenceAt? (c :: rest) = none := by
      rintro rfl
      exact hfound
    rw [joinUnquoted_of_none fun hb => referenceAt?_join_eq_none (hnone hb), ih]

/-- Joining puts underscores only. -/
theorem mem_joinUnquoted {b : Bool} {cs : List Char} {c : Char} (h : c ∈ joinUnquoted b cs) :
    c ∈ cs ∨ c = '_' := by
  fun_induction joinUnquoted b cs with
  | case1 => simp at h
  | case2 b d rest name after hfound ih =>
    have hreference : referenceAt? (d :: rest) = some (name, after) := by
      split at hfound
      · exact hfound
      · simp at hfound
    obtain ⟨e, digits, -, -, rfl, hcs⟩ := referenceAt?_eq_some_iff.1 hreference
    rw [hcs]
    rcases List.mem_append.1 h with hname | hrest
    · exact Or.inl (List.mem_append_left _ hname)
    · rcases List.mem_cons.1 hrest with rfl | hafter
      · exact Or.inr rfl
      · rcases ih hafter with hmem | hscore
        · exact Or.inl (List.mem_append_right _ (List.mem_cons_of_mem _ hmem))
        · exact Or.inr hscore
  | case3 b d rest _ ih =>
    rcases List.mem_cons.1 h with rfl | hrest
    · exact Or.inl List.mem_cons_self
    · exact (ih hrest).imp_left (List.mem_cons_of_mem _)

/-- No dot stands right behind a character of a name. -/
def Loose (cs : List Char) : Prop := cs.IsChain fun c next => next = '.' → isNameChar c = false

/-- The dot of a reference stands right behind its name. -/
theorem Loose.referenceAt?_eq_none {cs : List Char} (h : Loose cs) : referenceAt? cs = none := by
  rw [Option.eq_none_iff_forall_ne_some]
  rintro ⟨name, after⟩ hfound
  obtain ⟨c, digits, hletter, hdigits, -, rfl⟩ := referenceAt?_eq_some_iff.1 hfound
  have hlast : ∀ d ∈ (c :: digits).getLast?, isNameChar d = true := by
    intro d hd
    rcases List.mem_cons.1 (List.mem_of_getLast? hd) with rfl | hmem
    · exact isNameChar_of_letter hletter
    · exact isNameChar_of_isDigit (hdigits d hmem)
  have hdot := (List.isChain_append.1 h).2.2 ((c :: digits).getLast (by simp))
    (List.getLast?_eq_some_getLast _) '.' rfl rfl
  rw [hlast _ (List.getLast?_eq_some_getLast _)] at hdot
  simp at hdot

/-- A text without names right before dots has no references. -/
theorem Loose.joinUnquoted_eq {cs : List Char} (h : Loose cs) (b : Bool) : joinUnquoted b cs = cs := by
  induction cs generalizing b with
  | nil => rw [joinUnquoted]
  | cons c rest ih =>
    have htail : Loose rest := List.IsChain.tail h
    rw [joinUnquoted_of_none fun _ => h.referenceAt?_eq_none, ih htail]

/-! ## Texts with literals -/

theorem isQuote_iff {c : Char} : isQuote c = true ↔ c = '\'' ∨ c = '"' := by
  rw [isQuote, Bool.or_eq_true, beq_iff_eq, beq_iff_eq]

theorem joinReferencesIn_plain {plain : List Char} (h : ∀ c ∈ plain, isQuote c = false) :
    joinReferencesIn plain = joinUnquoted true plain := by
  have htake : plain.takeWhile (fun c => !isQuote c) = plain :=
    List.takeWhile_eq_self_iff.2 (by simpa using h)
  have hdrop : plain.dropWhile (fun c => !isQuote c) = [] :=
    List.dropWhile_eq_nil_iff.2 (by simpa using h)
  rw [joinReferencesIn]
  split
  · rw [htake]
  · next hquote => simp [hdrop] at hquote

theorem joinReferencesIn_nil : joinReferencesIn [] = [] := by
  rw [joinReferencesIn_plain (by simp), joinUnquoted]

theorem joinReferencesIn_quoted {plain rest : List Char} {quote : Char}
    (h : ∀ c ∈ plain, isQuote c = false) (hquote : isQuote quote = true) :
    joinReferencesIn (plain ++ quote :: rest) = joinUnquoted true plain ++
      quote :: (splitQuoted quote rest).1 ++ joinReferencesIn (splitQuoted quote rest).2 := by
  have hall : ∀ c ∈ plain, (!isQuote c) = true := fun c hc => by rw [h c hc]; rfl
  have htake : (plain ++ quote :: rest).takeWhile (fun c => !isQuote c) = plain := by
    rw [List.takeWhile_append_of_pos hall, List.takeWhile_cons_of_neg (by simp [hquote]), List.append_nil]
  have hdrop : (plain ++ quote :: rest).dropWhile (fun c => !isQuote c) = quote :: rest := by
    rw [List.dropWhile_append_of_pos hall, List.dropWhile_cons_of_neg (by simp [hquote])]
  rw [joinReferencesIn]
  split
  · next hnil => simp [hdrop] at hnil
  · next q more hq =>
    obtain ⟨rfl, rfl⟩ := List.cons.inj (hdrop.symm.trans hq)
    rw [htake]

/-- A text has a first quote or none. -/
theorem plain_or_quoted (cs : List Char) : (∀ c ∈ cs, isQuote c = false) ∨
    ∃ plain quote rest, cs = plain ++ quote :: rest ∧ (∀ c ∈ plain, isQuote c = false) ∧
      isQuote quote = true := by
  induction cs with
  | nil => simp
  | cons c cs ih =>
    cases hc : isQuote c with
    | true => exact Or.inr ⟨[], c, cs, rfl, by simp, hc⟩
    | false =>
      rcases ih with hplain | ⟨plain, quote, rest, rfl, hplain, hquote⟩
      · exact Or.inl (List.forall_mem_cons.2 ⟨hc, hplain⟩)
      · exact Or.inr ⟨c :: plain, quote, rest, rfl, List.forall_mem_cons.2 ⟨hc, hplain⟩, hquote⟩

/-- Behind a space a reference may start as it may at the start of a text. -/
theorem joinReferencesIn_space (cs : List Char) :
    joinReferencesIn (' ' :: cs) = ' ' :: joinReferencesIn cs := by
  have hspace : ∀ plain, joinUnquoted true (' ' :: plain) = ' ' :: joinUnquoted true plain := by
    intro plain
    rw [joinUnquoted_of_none fun _ => rfl]
    rfl
  rcases plain_or_quoted cs with hplain | ⟨plain, quote, rest, rfl, hplain, hquote⟩
  · rw [joinReferencesIn_plain hplain, joinReferencesIn_plain (List.forall_mem_cons.2 ⟨rfl, hplain⟩),
      hspace]
  · have hspaced : ∀ c ∈ ' ' :: plain, isQuote c = false := List.forall_mem_cons.2 ⟨rfl, hplain⟩
    rw [joinReferencesIn_quoted hplain hquote, ← List.cons_append,
      joinReferencesIn_quoted hspaced hquote, hspace]
    rfl

theorem splitQuoted_escape (quote c : Char) (rest : List Char) :
    splitQuoted quote ('\\' :: c :: rest) =
      ('\\' :: c :: (splitQuoted quote rest).1, (splitQuoted quote rest).2) := by
  rw [splitQuoted]

theorem splitQuoted_quote {quote : Char} (hquote : quote ≠ '\\') (rest : List Char) :
    splitQuoted quote (quote :: rest) = ([quote], rest) := by
  rw [splitQuoted, if_pos rfl]
  intro c more hslash
  exact absurd hslash hquote

theorem splitQuoted_char {quote c : Char} (hslash : c ≠ '\\') (hquote : c ≠ quote)
    (rest : List Char) :
    splitQuoted quote (c :: rest) = (c :: (splitQuoted quote rest).1, (splitQuoted quote rest).2) := by
  rw [splitQuoted, if_neg hquote]
  intro d more heq
  exact absurd heq hslash

/-- A literal is cut out of a text whatever stands behind it, unless it goes on to the end. -/
theorem splitQuoted_append_right {quote : Char} (hquote : quote ≠ '\\') (cs : List Char)
    {rest : List Char} (h : (splitQuoted quote cs).2 = [] → rest = []) :
    splitQuoted quote ((splitQuoted quote cs).1 ++ rest) = ((splitQuoted quote cs).1, rest) := by
  fun_induction splitQuoted quote cs with
  | case1 => rw [h rfl, List.append_nil, splitQuoted]
  | case2 c more literal after heq ih =>
    rw [heq] at ih
    rw [List.cons_append, List.cons_append, splitQuoted_escape, ih h]
  | case3 more => exact splitQuoted_quote hquote rest
  | case4 c more hslash hne literal after heq ih =>
    rw [heq] at ih
    by_cases hc : c = '\\'
    · -- a backslash that nothing stands behind ends the text
      obtain rfl : more = [] := by
        cases more with
        | nil => rfl
        | cons d last => exact absurd rfl (hslash d last hc)
      rw [splitQuoted, Prod.mk.injEq] at heq
      obtain ⟨rfl, rfl⟩ := heq
      rw [h rfl, List.append_nil, splitQuoted, if_neg hne, splitQuoted]
      exact hslash
    · rw [List.cons_append, splitQuoted_char hc hne, ih h]

theorem ne_slash_of_isQuote {quote : Char} (h : isQuote quote = true) : quote ≠ '\\' := by
  rintro rfl
  simp [isQuote] at h

theorem joinReferencesIn_idem (cs : List Char) :
    joinReferencesIn (joinReferencesIn cs) = joinReferencesIn cs := by
  have hplain : ∀ cs : List Char,
      ∀ c ∈ joinUnquoted true (cs.takeWhile fun c => !isQuote c), isQuote c = false := by
    intro cs c hc
    rcases mem_joinUnquoted hc with hmem | rfl
    · simpa using List.mem_takeWhile_imp hmem
    · rfl
  fun_induction joinReferencesIn cs with
  | case1 cs plain hnil =>
    rw [joinReferencesIn_plain (hplain cs)]
    exact joinUnquoted_idem true plain
  | case2 cs plain quote rest hrest ih =>
    have hquote : isQuote quote = true := by
      have hhead := List.head?_dropWhile_not (fun c => !isQuote c) cs
      rw [hrest] at hhead
      simpa using hhead
    have hlast : (splitQuoted quote rest).2 = [] →
        joinReferencesIn (splitQuoted quote rest).2 = [] := by
      intro hnil
      rw [hnil, joinReferencesIn_nil]
    have hcut := splitQuoted_append_right (ne_slash_of_isQuote hquote) rest hlast
    rw [List.append_assoc, List.cons_append, joinReferencesIn_quoted (hplain cs) hquote, hcut, ih,
      joinUnquoted_idem, List.append_assoc, List.cons_append]

/-- **Joining is done once.** -/
theorem joinReferences_idem (text : String) :
    joinReferences (joinReferences text) = joinReferences text := by
  rw [joinReferences, joinReferences, String.toList_ofList, joinReferencesIn_idem]

end AccessControl
