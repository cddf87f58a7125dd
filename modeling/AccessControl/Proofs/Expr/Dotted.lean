import AccessControl.Proofs.Expr.Literals
/-!
# Names between dots

What joining makes of names with dots between them depends on these names only.  The name of a definition
takes the name behind it, and this one takes no other; all other names stay.  So the name of a definition is
joined wherever it has a dot behind it, also as an attribute, and stays when it is the last name or when the
name before it took it.

    joinReferencesIn (before ++ dotted names ++ after) =
      joinReferencesIn before ++ dotted (joinNames names) ++ joinReferencesIn after   (`joinReferencesIn_dotted`)
    joinNames (name :: next :: rest) = name :: next :: rest, unless a definition's name is among those
      before the last                                                       (`joinNames_eq_self_iff`)
    the tokens of the names stand between the tokens of the two texts       (`tokensFrom_around`)
-/

namespace AccessControl

open Text

/-! ## Names -/

/-- Whether a name is one that definitions of requests and policies have: a letter and digits. -/
def isReference (name : String) : Bool :=
  match name.toList with
  | c :: digits => (c = 'r' || c = 'p') && digits.all Char.isDigit
  | [] => false

/-- Names with dots between them. -/
def dotted (names : List String) : List Char := ['.'].intercalate (names.map String.toList)

/-- What joining makes of names with dots between them. -/
def joinNames : List String → List String
  | [] => []
  | [name] => [name]
  | name :: next :: rest =>
    if isReference name then (name ++ "_" ++ next) :: joinNames rest
    else name :: joinNames (next :: rest)

theorem isReference_iff {name : String} : isReference name = true ↔
    ∃ c digits, name.toList = c :: digits ∧ (c = 'r' ∨ c = 'p') ∧ ∀ d ∈ digits, d.isDigit = true := by
  unfold isReference
  split
  · next c digits hlist => simp [hlist]
  · next hlist => simp [hlist]

theorem dotted_singleton (name : String) : dotted [name] = name.toList := by
  simp [dotted]

theorem dotted_cons (name : String) {rest : List String} (h : rest ≠ []) :
    dotted (name :: rest) = name.toList ++ '.' :: dotted rest := by
  obtain ⟨next, more, rfl⟩ := List.exists_cons_of_ne_nil h
  rw [dotted, List.map_cons, List.map_cons, List.intercalate_cons_cons, List.append_assoc,
    List.singleton_append]
  rfl

theorem joinNames_ne_nil {names : List String} (h : names ≠ []) : joinNames names ≠ [] := by
  fun_cases joinNames names <;> simp_all

/-- Names stay when no definition's name has one behind it. -/
theorem joinNames_eq_self_iff (names : List String) :
    joinNames names = names ↔ ∀ name ∈ names.dropLast, isReference name = false := by
  fun_induction joinNames names with
  | case1 => simp
  | case2 name => simp
  | case3 name next rest href ih =>
    rw [List.dropLast_cons_of_ne_nil (List.cons_ne_nil _ _)]
    refine iff_of_false (fun heq => ?_) fun hall => ?_
    · -- the joined name is longer
      have hname := congrArg String.length (List.cons.inj heq).1
      simp only [String.length_append] at hname
      have hscore : "_".length = 1 := rfl
      omega
    · rw [hall name List.mem_cons_self] at href
      exact Bool.false_ne_true href
  | case4 name next rest href ih =>
    rw [List.dropLast_cons_of_ne_nil (List.cons_ne_nil _ _), List.forall_mem_cons, ← ih, List.cons.injEq]
    simp [href]

/-- No reserved word is the name of a definition. -/
theorem IsName.of_isReference {name : String} (h : isReference name = true) : IsName name := by
  constructor
  · obtain ⟨c, digits, hlist, hletter, hdigits⟩ := isReference_iff.1 h
    unfold isIdentifier
    rw [hlist]
    dsimp only
    rw [Bool.and_eq_true, List.all_eq_true]
    refine ⟨?_, fun d hd => continuesName_of_isDigit (hdigits d hd)⟩
    rcases hletter with rfl | rfl <;> rfl
  · intro hmem
    have hnone : ∀ word ∈ reservedWords, isReference word = false := by decide
    rw [hnone name hmem] at h
    exact Bool.false_ne_true h

theorem IsName.chars {name : String} (h : IsName name) : ∀ c ∈ name.toList, continuesName c = true := by
  obtain ⟨c, rest, hlist, hstart, hnames⟩ := h.cons
  rw [hlist, List.forall_mem_cons]
  exact ⟨continuesName_of_startsName hstart, hnames⟩

/-- A joined name is a name: no reserved word has an underscore. -/
theorem IsName.joined {name next : String} (hname : IsName name) (hnext : IsName next) :
    IsName (name ++ "_" ++ next) := by
  have hlist : (name ++ "_" ++ next).toList = name.toList ++ '_' :: next.toList := by
    rw [String.toList_append, String.toList_append, List.append_assoc]
    rfl
  constructor
  · obtain ⟨c, rest, hchars, hstart, hrest⟩ := hname.cons
    unfold isIdentifier
    rw [hlist, hchars, List.cons_append]
    dsimp only
    rw [Bool.and_eq_true, List.all_eq_true]
    refine ⟨hstart, ?_⟩
    rw [List.forall_mem_append, List.forall_mem_cons]
    exact ⟨hrest, rfl, hnext.chars⟩
  · intro hmem
    have hnone : ∀ word ∈ reservedWords, '_' ∉ word.toList := by decide
    exact hnone _ hmem (by rw [hlist]; simp)

theorem IsName.joinNames {names : List String} (h : ∀ name ∈ names, IsName name) :
    ∀ name ∈ joinNames names, IsName name := by
  fun_induction AccessControl.joinNames names with
  | case1 => simp
  | case2 name => exact h
  | case3 name next rest _ ih =>
    simp only [List.forall_mem_cons] at h ⊢
    exact ⟨h.1.joined h.2.1, ih h.2.2⟩
  | case4 name next rest _ ih =>
    rw [List.forall_mem_cons] at h ⊢
    exact ⟨h.1, ih h.2⟩

/-! ## Joining names -/

/-- A character beside names that is no part of them. -/
def Apart (beside : Option Char) : Prop := ∀ c ∈ beside, continuesName c = false ∧ c ≠ '.'

/-- Behind a name that no dot follows, or that no definition has, joining goes on. -/
theorem joinUnquoted_name {name : String} (h : IsName name) (b : Bool) {rest : List Char}
    (hrest : ∀ c ∈ rest.head?, continuesName c = false)
    (hnot : isReference name = true → rest.head? ≠ some '.') :
    joinUnquoted b (name.toList ++ rest) = name.toList ++ joinUnquoted false rest := by
  obtain ⟨c, cs, hlist, hstart, hnames⟩ := h.cons
  have hnone : referenceAt? (c :: (cs ++ rest)) = none := by
    rw [Option.eq_none_iff_forall_ne_some]
    rintro ⟨found, after⟩ hfound
    obtain ⟨d, digits, hletter, hdigits, -, heq⟩ := referenceAt?_eq_some_iff.1 hfound
    obtain ⟨rfl, htail⟩ := List.cons.inj heq
    -- the dot of a reference stands right behind the name
    rcases List.append_eq_append_iff.1 htail with ⟨more, rfl, hrest'⟩ | ⟨more, rfl, hdot⟩
    · cases more with
      | nil =>
        rw [List.append_nil] at hdigits
        exact hnot (isReference_iff.2 ⟨c, cs, hlist, hletter, hdigits⟩) (by rw [hrest']; rfl)
      | cons e more =>
        have hdigit : continuesName e = true := continuesName_of_isDigit (hdigits e (by simp))
        rw [hrest e (by rw [hrest']; rfl)] at hdigit
        exact Bool.false_ne_true hdigit
    · cases more with
      | nil =>
        rw [List.append_nil] at hlist
        exact hnot (isReference_iff.2 ⟨c, digits, hlist, hletter, hdigits⟩)
          (by rw [List.nil_append] at hdot; rw [← hdot]; rfl)
      | cons e more =>
        obtain ⟨rfl, -⟩ := List.cons.inj hdot
        exact absurd (hnames '.' (by simp)) (by decide)
  rw [hlist, List.cons_append, joinUnquoted_of_none fun _ => hnone,
    show isNameChar c = true from continuesName_of_startsName hstart, Bool.not_true,
    joinUnquoted_names hnames, List.cons_append]

theorem joinUnquoted_dot (rest : List Char) :
    joinUnquoted false ('.' :: rest) = '.' :: joinUnquoted true rest := joinUnquoted_false '.' rest

/-- At a character that starts no name it does not matter whether a reference may start. -/
theorem Apart.joinUnquoted_eq {rest : List Char} (h : Apart rest.head?) :
    joinUnquoted false rest = joinUnquoted true rest := by
  cases rest with
  | nil => rw [joinUnquoted, joinUnquoted]
  | cons c more =>
    have hnone : referenceAt? (c :: more) = none := by
      rw [Option.eq_none_iff_forall_ne_some]
      rintro ⟨found, after⟩ hfound
      obtain ⟨d, digits, hletter, -, -, heq⟩ := referenceAt?_eq_some_iff.1 hfound
      obtain ⟨rfl, -⟩ := List.cons.inj heq
      have hchar : continuesName c = true := isNameChar_of_letter hletter
      rw [(h c rfl).1] at hchar
      exact Bool.false_ne_true hchar
    rw [joinUnquoted_false, joinUnquoted_of_none fun _ => hnone]

/-- **Joining joins the names.** -/
theorem joinUnquoted_dotted {names : List String} (h : ∀ name ∈ names, IsName name) (hne : names ≠ [])
    {after : List Char} (hafter : Apart after.head?) :
    joinUnquoted true (dotted names ++ after) = dotted (joinNames names) ++ joinUnquoted true after := by
  have hstop : ∀ c ∈ after.head?, continuesName c = false := fun c hc => (hafter c hc).1
  have hnodot : after.head? ≠ some '.' := fun hdot => (hafter '.' hdot).2 rfl
  have hdot : ∀ rest : List Char, ∀ c ∈ ('.' :: rest).head?, continuesName c = false := by
    rintro rest c hc
    obtain rfl := Option.some.inj hc
    rfl
  fun_induction joinNames names with
  | case1 => exact absurd rfl hne
  | case2 name =>
    rw [dotted_singleton, joinUnquoted_name (h name List.mem_cons_self) true hstop fun _ => hnodot,
      hafter.joinUnquoted_eq]
  | case3 name next rest href ih =>
    simp only [List.forall_mem_cons] at h
    obtain ⟨c, digits, hlist, hletter, hdigits⟩ := isReference_iff.1 href
    have hfound : referenceAt? (name.toList ++ '.' :: (dotted (next :: rest) ++ after)) =
        some (name.toList, dotted (next :: rest) ++ after) :=
      referenceAt?_eq_some_iff.2 ⟨c, digits, hletter, hdigits, hlist, by rw [hlist]⟩
    rw [dotted_cons name (List.cons_ne_nil _ _), List.append_assoc, List.cons_append,
      joinUnquoted_of_some hfound]
    -- the name that is taken is behind no character that a reference may be behind
    cases rest with
    | nil =>
      rw [dotted_singleton, joinUnquoted_name h.2.1 false hstop fun _ => hnodot, hafter.joinUnquoted_eq,
        joinNames, dotted_singleton]
      simp
    | cons last more =>
      have hrest := ih h.2.2 (List.cons_ne_nil _ _)
      rw [dotted_cons next (List.cons_ne_nil _ _), List.append_assoc, List.cons_append,
        joinUnquoted_names h.2.1.chars, joinUnquoted_dot, hrest,
        dotted_cons _ (joinNames_ne_nil (List.cons_ne_nil _ _))]
      simp
  | case4 name next rest href ih =>
    rw [List.forall_mem_cons] at h
    have hrest := ih h.2 (List.cons_ne_nil _ _)
    rw [dotted_cons name (List.cons_ne_nil _ _), List.append_assoc, List.cons_append,
      joinUnquoted_name h.1 true (hdot _) fun htrue => absurd htrue href, joinUnquoted_dot, hrest,
      dotted_cons name (joinNames_ne_nil (List.cons_ne_nil _ _)), List.append_assoc, List.cons_append]

/-! ## Names in a text -/

/-- Every literal of a text is closed. -/
inductive Closed : List Char → Prop where
  | plain {cs : List Char} (h : ∀ c ∈ cs, isQuote c = false) : Closed cs
  | literal {plain rest text lexeme after : List Char} {quote : Char}
    (hplain : ∀ c ∈ plain, isQuote c = false) (hquote : isQuote quote = true)
    (hread : readQuoted quote rest = some (text, lexeme, after)) (hafter : Closed after) :
    Closed (plain ++ quote :: rest)

/-- A closed literal is read whatever is behind it. -/
theorem readQuoted_append_right {quote : Char} {cs text lexeme rest : List Char}
    (h : readQuoted quote cs = some (text, lexeme, rest)) (more : List Char) :
    readQuoted quote (cs ++ more) = some (text, lexeme, rest ++ more) := by
  fun_induction readQuoted quote cs generalizing text lexeme with
  | case1 => simp at h
  | case2 c cs ih =>
    obtain ⟨⟨t, l, r⟩, hr, heq⟩ := Option.map_eq_some_iff.1 h
    simp only [Prod.mk.injEq] at heq
    obtain ⟨rfl, rfl, rfl⟩ := heq
    rw [List.cons_append, List.cons_append, readQuoted_escape, ih hr]
    rfl
  | case3 => simp at h
  | case4 cs _ hslash =>
    simp only [Option.some.injEq, Prod.mk.injEq] at h
    obtain ⟨rfl, rfl, rfl⟩ := h
    exact readQuoted_quote hslash _
  | case5 c cs _ hslash hne ih =>
    obtain ⟨⟨t, l, r⟩, hr, heq⟩ := Option.map_eq_some_iff.1 h
    simp only [Prod.mk.injEq] at heq
    obtain ⟨rfl, rfl, rfl⟩ := heq
    rw [List.cons_append, readQuoted_char hslash hne, ih hr]
    rfl

/-- What joining does to a text in front of another one, when it does so in front of what the other starts
with. -/
theorem joinReferencesIn_append {plain out cs : List Char} (hplain : ∀ c ∈ plain, isQuote c = false)
    (h : ∀ front, front <+: cs → joinUnquoted true (plain ++ front) = out ++ joinUnquoted true front) :
    joinReferencesIn (plain ++ cs) = out ++ joinReferencesIn cs := by
  rcases plain_or_quoted cs with hcs | ⟨front, quote, rest, rfl, hfront, hquote⟩
  · rw [joinReferencesIn_plain hcs, joinReferencesIn_plain (List.forall_mem_append.2 ⟨hplain, hcs⟩),
      h cs (List.prefix_refl cs)]
  · rw [← List.append_assoc, joinReferencesIn_quoted (List.forall_mem_append.2 ⟨hplain, hfront⟩) hquote,
      joinReferencesIn_quoted hfront hquote, h front (List.prefix_append _ _)]
    simp only [List.append_assoc]

theorem Apart.of_prefix {front cs : List Char} (h : Apart cs.head?) (hfront : front <+: cs) :
    Apart front.head? := by
  obtain ⟨back, rfl⟩ := hfront
  intro c hc
  exact h c (by rw [List.head?_append, Option.mem_def.1 hc]; rfl)

/-- The end of what is behind something is the end of all. -/
theorem Apart.of_suffix (front : List Char) {back : List Char} (h : Apart (front ++ back).getLast?) :
    Apart back.getLast? := by
  intro c hc
  exact h c (by rw [List.getLast?_append, Option.mem_def.1 hc]; rfl)

/-- A character that becomes an underscore is a dot, and no dot stands apart. -/
theorem Apart.of_dots_head {cs ds : List Char} (h : Apart cs.head?) (hdots : List.Forall₂ BecomesScore cs ds) :
    Apart ds.head? := by
  cases hdots with
  | nil => exact h
  | @cons c d cs ds hcd _ =>
    rcases hcd with rfl | ⟨rfl, -⟩
    · exact h
    · exact absurd rfl (h '.' rfl).2

theorem Apart.of_dots {cs ds : List Char} (h : Apart cs.getLast?) (hdots : List.Forall₂ BecomesScore cs ds) :
    Apart ds.getLast? := by
  rw [← List.head?_reverse] at h ⊢
  exact h.of_dots_head (List.forall₂_reverse_iff.2 hdots)

theorem Apart.not_continues {cs : List Char} (h : Apart cs.getLast?) (hne : cs ≠ []) :
    ∃ c ∈ cs, continuesName c = false :=
  ⟨cs.getLast hne, List.getLast_mem hne, (h _ (List.getLast?_eq_some_getLast hne)).1⟩

/-- No reference goes over the end of a text where no name ends. -/
theorem Apart.referenceAt?_append {plain : List Char} (hlast : Apart plain.getLast?) (hne : plain ≠ [])
    (rest : List Char) : referenceAt? (plain ++ rest) =
      (referenceAt? plain).map fun found => (found.1, found.2 ++ rest) := by
  cases hplain : referenceAt? plain with
  | some found =>
    obtain ⟨c, digits, hletter, hdigits, hname, heq⟩ := referenceAt?_eq_some_iff.1 hplain
    exact referenceAt?_eq_some_iff.2 ⟨c, digits, hletter, hdigits, hname, by rw [heq]; simp⟩
  | none =>
    rw [Option.map_none, Option.eq_none_iff_forall_ne_some]
    rintro ⟨name, after⟩ hlonger
    obtain ⟨c, digits, hletter, hdigits, -, heq⟩ := referenceAt?_eq_some_iff.1 hlonger
    obtain ⟨e, he, hnot⟩ := hlast.not_continues hne
    have hname : e ∉ c :: digits := by
      intro hmem
      have hcontinues : continuesName e = true := by
        rcases List.mem_cons.1 hmem with rfl | hmem
        · exact isNameChar_of_letter hletter
        · exact continuesName_of_isDigit (hdigits e hmem)
      rw [hnot] at hcontinues
      exact Bool.false_ne_true hcontinues
    rcases List.append_eq_append_iff.1 heq with ⟨back, hback, -⟩ | ⟨back, hback, hdot⟩
    · exact hname (by rw [hback]; exact List.mem_append_left _ he)
    · cases back with
      | nil => exact hname (by rwa [hback, List.append_nil] at he)
      | cons d back =>
        obtain ⟨rfl, -⟩ := List.cons.inj hdot
        have hthere := referenceAt?_eq_some_iff.2 ⟨c, digits, hletter, hdigits, rfl, hback⟩
        rw [hplain] at hthere
        simp at hthere

/-- Joining goes on behind a text where no name ends as at the start of a text. -/
theorem joinUnquoted_append (b : Bool) {plain : List Char} (hne : plain ≠ [])
    (hlast : Apart plain.getLast?) (rest : List Char) :
    joinUnquoted b (plain ++ rest) = joinUnquoted b plain ++ joinUnquoted true rest := by
  fun_induction joinUnquoted b plain with
  | case1 => exact absurd rfl hne
  | case2 b c more name after hfound ih =>
    split at hfound
    · next hb =>
      subst hb
      obtain ⟨d, digits, -, -, -, heq⟩ := referenceAt?_eq_some_iff.1 hfound
      rw [heq, List.append_cons] at hlast
      have hafter : after ≠ [] := by
        rintro rfl
        exact (hlast '.' (by rw [List.append_nil, List.getLast?_concat]; rfl)).2 rfl
      have hlonger : referenceAt? (c :: more ++ rest) = some (name, after ++ rest) := by
        rw [Apart.referenceAt?_append (by rwa [heq, List.append_cons]) hne, hfound]
        rfl
      rw [joinUnquoted_of_some hlonger, ih hafter (hlast.of_suffix _), List.append_assoc, List.cons_append]
    · simp at hfound
  | case3 b c more hfound ih =>
    have hnone : b = true → referenceAt? (c :: (more ++ rest)) = none := by
      rintro rfl
      have hhere : referenceAt? (c :: more) = none := hfound
      rw [← List.cons_append, hlast.referenceAt?_append hne, hhere]
      rfl
    rw [List.cons_append, joinUnquoted_of_none hnone, List.cons_append]
    cases more with
    | nil =>
      have hc : isNameChar c = false := (hlast c rfl).1
      rw [List.nil_append, hc, joinUnquoted]
      rfl
    | cons d more => rw [ih (List.cons_ne_nil _ _) (by simpa using hlast)]

/-- Names with dots between them have no quotes. -/
theorem not_isQuote_of_mem_dotted {names : List String} (h : ∀ name ∈ names, IsName name) :
    ∀ c ∈ dotted names, isQuote c = false := by
  induction names with
  | nil => simp [dotted]
  | cons name rest ih =>
    rw [List.forall_mem_cons] at h
    have hname : ∀ c ∈ name.toList, isQuote c = false :=
      fun c hc => not_isQuote_of_continuesName (h.1.chars c hc)
    by_cases hne : rest = []
    · rwa [hne, dotted_singleton]
    · rw [dotted_cons name hne, List.forall_mem_append, List.forall_mem_cons]
      exact ⟨hname, rfl, ih h.2⟩

/-- **Joining joins the names that stand between two texts.** -/
theorem joinReferencesIn_dotted {before after : List Char} (hclosed : Closed before)
    (hbefore : Apart before.getLast?) (hafter : Apart after.head?) {names : List String}
    (h : ∀ name ∈ names, IsName name) (hne : names ≠ []) :
    joinReferencesIn (before ++ (dotted names ++ after)) =
      joinReferencesIn before ++ (dotted (joinNames names) ++ joinReferencesIn after) := by
  have hnames : joinReferencesIn (dotted names ++ after) =
      dotted (joinNames names) ++ joinReferencesIn after :=
    joinReferencesIn_append (not_isQuote_of_mem_dotted h) fun front hfront =>
      joinUnquoted_dotted h hne (hafter.of_prefix hfront)
  induction hclosed with
  | @plain cs hcs =>
    have happend : joinReferencesIn (cs ++ (dotted names ++ after)) =
        joinUnquoted true cs ++ joinReferencesIn (dotted names ++ after) := by
      refine joinReferencesIn_append hcs fun front _ => ?_
      by_cases hnil : cs = []
      · rw [hnil, joinUnquoted]
        rfl
      · exact joinUnquoted_append true hnil hbefore front
    rw [happend, hnames, joinReferencesIn_plain hcs]
  | @literal plain rest text lexeme behind quote hplain hquote hread _ ih =>
    have hslash := ne_slash_of_isQuote hquote
    have hlong := splitQuoted_of_readQuoted hslash
      (readQuoted_append_right hread (dotted names ++ after))
    have hbehind : Apart behind.getLast? := by
      rw [← (readQuoted_append hread).1, ← List.cons_append, ← List.append_assoc] at hbefore
      exact hbefore.of_suffix _
    rw [List.append_assoc, List.cons_append, joinReferencesIn_quoted hplain hquote, hlong, ih hbehind,
      joinReferencesIn_quoted hplain hquote, splitQuoted_of_readQuoted hslash hread]
    simp only [List.append_assoc]

/-! ## Tokens of names in a text -/

/-- Where a text does not satisfy a test throughout, what it starts with does not depend on what is behind it. -/
theorem split_append_right {p : Char → Bool} {cs : List Char} (h : ∃ c ∈ cs, p c = false)
    (rest : List Char) : (cs ++ rest).takeWhile p = cs.takeWhile p ∧
      (cs ++ rest).dropWhile p = cs.dropWhile p ++ rest := by
  induction cs with
  | nil => simp at h
  | cons d more ih =>
    cases hd : p d with
    | false => simp [List.takeWhile, List.dropWhile, hd]
    | true =>
      obtain ⟨c, hc, hnot⟩ := h
      rcases List.mem_cons.1 hc with rfl | hmem
      · rw [hd] at hnot
        simp at hnot
      · obtain ⟨htake, hdrop⟩ := ih ⟨c, hmem, hnot⟩
        simp [List.takeWhile, List.dropWhile, hd, htake, hdrop]

theorem Apart.not_digits {cs : List Char} (h : Apart cs.getLast?) (hne : cs ≠ []) :
    ∃ c ∈ cs, c.isDigit = false := by
  obtain ⟨c, hc, hnot⟩ := h.not_continues hne
  refine ⟨c, hc, ?_⟩
  rw [Bool.eq_false_iff]
  intro hdigit
  rw [continuesName_of_isDigit hdigit] at hnot
  simp at hnot

theorem splitFraction_append_right {cs : List Char} (hlast : Apart cs.getLast?) (hne : cs ≠ [])
    (rest : List Char) :
    splitFraction (cs ++ rest) = ((splitFraction cs).1, (splitFraction cs).2 ++ rest) := by
  obtain ⟨c, more, rfl⟩ := List.exists_cons_of_ne_nil hne
  by_cases hdot : c = '.'
  · subst hdot
    -- a dot is not the last character
    cases more with
    | nil => exact absurd rfl (hlast '.' rfl).2
    | cons d more =>
      have hmore : Apart (d :: more).getLast? := hlast.of_suffix ['.']
      obtain ⟨htake, hdrop⟩ := split_append_right (hmore.not_digits (List.cons_ne_nil _ _)) rest
      rw [List.cons_append, splitFraction, splitFraction, htake, hdrop]
      by_cases hdigit : d.isDigit = true <;> simp [hdigit]
  · have hnone : ∀ cs : List Char, splitFraction (c :: cs) = (none, c :: cs) := by
      intro cs
      rw [splitFraction]
      rintro cs' heq
      exact hdot (List.cons.inj heq).1
    rw [List.cons_append, hnone, hnone]
    rfl

theorem readNumber_append_right {cs lexeme after : List Char} {t : Token}
    (h : readNumber cs = .ok (t, lexeme, after)) (hlast : Apart cs.getLast?) (hne : cs ≠ [])
    (rest : List Char) : readNumber (cs ++ rest) = .ok (t, lexeme, after ++ rest) := by
  obtain ⟨htake, hdrop⟩ := split_append_right (hlast.not_digits hne) rest
  have hbehind : cs.dropWhile Char.isDigit ≠ [] := by
    rw [Ne, List.dropWhile_eq_nil_iff]
    intro hall
    obtain ⟨c, hc, hnot⟩ := hlast.not_digits hne
    rw [hall c hc] at hnot
    simp at hnot
  have hlast' : Apart (cs.dropWhile Char.isDigit).getLast? := by
    rw [← List.takeWhile_append_dropWhile (p := Char.isDigit) (l := cs)] at hlast
    exact hlast.of_suffix _
  unfold readNumber at h ⊢
  dsimp only at h ⊢
  rw [htake, hdrop, splitFraction_append_right hlast' hbehind]
  cases hn : numberToken (cs.takeWhile Char.isDigit)
      (splitFraction (cs.dropWhile Char.isDigit)).1 with
  | error e => simp [hn, Except.map] at h
  | ok n =>
    simp only [hn, Except.map, Except.ok.injEq, Prod.mk.injEq] at h ⊢
    obtain ⟨rfl, rfl, rfl⟩ := h
    exact ⟨rfl, rfl, rfl⟩

/-- No symbol ends with a character of a name. -/
theorem longSymbol?_append {c : Char} {cs rest : List Char} (hrest : ∀ d ∈ rest.head?, startsName d = true)
    (h : cs.head?.bind (longSymbol? c) = none) : (cs ++ rest).head?.bind (longSymbol? c) = none := by
  cases cs with
  | cons d more => exact h
  | nil =>
    cases rest with
    | nil => rfl
    | cons d more =>
      have hd := hrest d rfl
      show longSymbol? c d = none
      unfold longSymbol?
      split <;> first | rfl | exact absurd hd (by decide)

/-- A token in front of a name is read as it is without the name. -/
theorem readToken_append_right {c : Char} {cs lexeme after : List Char} {t : Token}
    (h : readToken c cs = .ok (t, lexeme, after)) (hlast : Apart (c :: cs).getLast?) {rest : List Char}
    (hrest : ∀ d ∈ rest.head?, startsName d = true) :
    readToken c (cs ++ rest) = .ok (t, lexeme, after ++ rest) := by
  refine Reads.readToken_eq ?_
  cases reads_of_readToken h with
  | long hsymbol => exact .long hsymbol
  | short hlong hshort => exact .short (longSymbol?_append hrest hlong) hshort
  | quoted hquote hread => exact .quoted hquote (readQuoted_append_right hread rest)
  | number hdigit hread =>
    exact .number hdigit (readNumber_append_right hread hlast (List.cons_ne_nil _ _) rest)
  | spelled hstart =>
    obtain ⟨e, he, hnot⟩ := hlast.not_continues (List.cons_ne_nil _ _)
    have hmem : e ∈ cs := by
      rcases List.mem_cons.1 he with rfl | hmem
      · rw [continuesName_of_startsName hstart] at hnot
        simp at hnot
      · exact hmem
    obtain ⟨htake, hdrop⟩ := split_append_right ⟨e, hmem, hnot⟩ rest
    rw [← htake, ← hdrop]
    exact .spelled hstart

/-- Tokens in front of a name are read as they are without the name. -/
theorem Lexes.tokensFrom_append {offset : Nat} {before : List Char} {lexemes : List Lexeme}
    (h : Lexes offset before lexemes) (hlast : Apart before.getLast?) {rest : List Char}
    (hrest : ∀ d ∈ rest.head?, startsName d = true) :
    tokensFrom offset (before ++ rest) =
      (tokensFrom (offset + byteLength before) rest).map (lexemes.map Lexeme.placed ++ ·) := by
  induction h with
  | done offset =>
    cases hrest : tokensFrom offset rest <;> simp [byteLength, hrest, Except.map]
  | @gap offset c more lexemes hgap _ ih =>
    have hlast' : Apart more.getLast? := hlast.of_suffix [c]
    rw [List.cons_append, tokensFrom_gap hgap, ih hlast', byteLength_gap hgap, Nat.add_assoc]
  | @token offset c more chars after t lexemes hgap hread _ ih =>
    obtain ⟨happend, -⟩ := readToken_append hread
    have hlast' : Apart after.getLast? := by
      rw [← happend] at hlast
      exact hlast.of_suffix _
    rw [List.cons_append, tokensFrom_token hgap (readToken_append_right hread hlast hrest), ih hlast',
      ← happend, byteLength_append, Nat.add_assoc]
    cases tokensFrom (offset + (byteLength chars + byteLength after)) rest <;> rfl

theorem tokensFrom_name {name : String} (h : IsName name) {rest : List Char}
    (hrest : ∀ c ∈ rest.head?, continuesName c = false) (offset : Nat) :
    tokensFrom offset (name.toList ++ rest) =
      (tokensFrom (offset + byteLength name.toList) rest).map (⟨.name name, offset⟩ :: ·) := by
  obtain ⟨c, cs, hlist, hstart, hnames⟩ := h.cons
  have hread := readToken_name hstart hnames hrest
  rw [← hlist, String.ofList_toList, h.word_eq] at hread
  rw [hlist, List.cons_append, ← hlist]
  exact tokensFrom_token (not_gap_of_continuesName (continuesName_of_startsName hstart)) hread offset

theorem tokensFrom_dot (offset : Nat) (rest : List Char) :
    tokensFrom offset ('.' :: rest) =
      (tokensFrom (offset + 1) rest).map (⟨.symbol .dot, offset⟩ :: ·) := by
  have hread : readToken '.' rest = .ok (.symbol .dot, ['.'], rest) := by
    cases rest <;> rfl
  exact tokensFrom_token rfl hread offset

/-- The tokens of names with dots between them. -/
theorem tokensFrom_dotted {name : String} {rest : List String} (h : ∀ n ∈ name :: rest, IsName n)
    {after : List Char} (hafter : Apart after.head?) (offset : Nat) :
    ∃ placed, Expr.bare placed = .name name :: Grammar.attributeTokens rest ∧
      tokensFrom offset (dotted (name :: rest) ++ after) =
        (tokensFrom (offset + byteLength (dotted (name :: rest))) after).map (placed ++ ·) := by
  induction rest generalizing name offset with
  | nil =>
    refine ⟨[⟨.name name, offset⟩], rfl, ?_⟩
    rw [dotted_singleton, tokensFrom_name (h name List.mem_cons_self) fun c hc => (hafter c hc).1]
    rfl
  | cons next more ih =>
    rw [List.forall_mem_cons] at h
    obtain ⟨placed, hbare, htokens⟩ := ih h.2 (offset + byteLength name.toList + 1)
    refine ⟨⟨.name name, offset⟩ :: ⟨.symbol .dot, offset + byteLength name.toList⟩ :: placed, ?_, ?_⟩
    · rw [Expr.bare_cons, Expr.bare_cons, hbare]
      rfl
    · have hdot : ∀ c ∈ ('.' :: (dotted (next :: more) ++ after)).head?, continuesName c = false := by
        intro c hc
        obtain rfl := Option.some.inj hc
        rfl
      have hlength : byteLength (dotted (name :: next :: more)) =
          byteLength name.toList + (1 + byteLength (dotted (next :: more))) := by
        rw [dotted_cons name (List.cons_ne_nil _ _), byteLength_append]
        rfl
      rw [hlength, dotted_cons name (List.cons_ne_nil _ _), List.append_assoc, List.cons_append,
        tokensFrom_name h.1 hdot, tokensFrom_dot, htokens]
      simp only [Nat.add_assoc]
      cases tokensFrom (offset + (byteLength name.toList + (1 + byteLength (dotted (next :: more))))) after <;>
        rfl

/-- **The tokens of names stand between those of two texts.** -/
theorem tokensFrom_around {before after : List Char} {bs as : List PlacedToken} (hbefore : Apart before.getLast?)
    (hafter : Apart after.head?) {name : String} {rest : List String} (h : ∀ n ∈ name :: rest, IsName n)
    (hbs : tokensFrom 0 before = .ok bs)
    (has : tokensFrom (byteLength (before ++ dotted (name :: rest))) after = .ok as) :
    ∃ placed, Expr.bare placed = .name name :: Grammar.attributeTokens rest ∧
      tokensFrom 0 (before ++ (dotted (name :: rest) ++ after)) = .ok (bs ++ (placed ++ as)) := by
  obtain ⟨lexemes, hlexes, rfl⟩ := exists_lexes hbs
  obtain ⟨placed, hbare, htokens⟩ := tokensFrom_dotted h hafter (byteLength before)
  refine ⟨placed, hbare, ?_⟩
  have hstarts : ∀ d ∈ (dotted (name :: rest) ++ after).head?, startsName d = true := by
    obtain ⟨c, cs, hlist, hstart, -⟩ := (h name List.mem_cons_self).cons
    have hhead : (dotted (name :: rest) ++ after).head? = some c := by
      by_cases hne : rest = []
      · rw [hne, dotted_singleton, hlist]
        rfl
      · rw [dotted_cons name hne, hlist]
        rfl
    intro d hd
    rw [hhead] at hd
    rwa [← Option.some.inj hd]
  rw [hlexes.tokensFrom_append hbefore hstarts, Nat.zero_add, htokens, ← byteLength_append, has]
  rfl

end AccessControl
