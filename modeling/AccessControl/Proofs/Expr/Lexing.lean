import AccessControl.Proofs.Expr.References
import AccessControl.Proofs.Expr.Spelling
import AccessControl.Proofs.Number.Digits
import Mathlib
/-!
# Reading what was written

A token as it is written is read back, whatever a space behind it is followed by.  Names and numbers end
there; a string ends at its own quote, since each quote and each backslash in it has a backslash before it.

    readQuoted quote (escaped s ++ quote :: rest) = s, with rest behind it       (`readQuoted_escaped`)
    readToken of what is written for t = t                                       (`readToken_write`)
    the tokens of a text are those it was written from                           (`tokens_write`)
    a written text has no references to join                                     (`joinReferences_write`)
-/

namespace AccessControl

/-! ## Names -/

theorem continuesName_of_startsName {c : Char} (h : startsName c = true) : continuesName c = true := by
  rw [startsName, Bool.or_eq_true] at h
  rcases h with hscore | halpha
  · simp [continuesName, hscore]
  · simp [continuesName, Char.isAlphanum, halpha]

theorem not_digit_of_startsName {c : Char} (h : startsName c = true) : c.isDigit = false := by
  rw [Bool.eq_false_iff]
  intro hdigit
  rw [startsName, Bool.or_eq_true, beq_iff_eq] at h
  rcases h with rfl | halpha
  · exact absurd hdigit (by decide)
  · simp only [Char.isDigit, Char.isAlpha, Char.isUpper, Char.isLower, Bool.and_eq_true,
      Bool.or_eq_true, decide_eq_true_eq, UInt32.le_iff_toNat_le, ge_iff_le] at hdigit halpha
    have hnine : '9'.val.toNat = 57 := rfl
    have hupper : 'A'.val.toNat = 65 := rfl
    have hlower : 'a'.val.toNat = 97 := rfl
    omega

theorem continuesName_of_isDigit {c : Char} (h : c.isDigit = true) : continuesName c = true :=
  isNameChar_of_isDigit h

theorem longSymbol?_eq_none {c : Char} (h : continuesName c = true) (next : Char) :
    longSymbol? c next = none := by
  unfold longSymbol?
  split <;> first | rfl | exact absurd h (by decide)

theorem shortSymbol?_eq_none {c : Char} (h : continuesName c = true) : shortSymbol? c = none := by
  unfold shortSymbol?
  split <;> first | rfl | exact absurd h (by decide)

theorem not_quote_of_continuesName {c : Char} (h : continuesName c = true) :
    (c = '\'' || c = '"') = false := by
  rw [Bool.or_eq_false_iff, decide_eq_false_iff_not, decide_eq_false_iff_not]
  constructor
  · rintro rfl
    exact absurd h (by decide)
  · rintro rfl
    exact absurd h (by decide)

theorem not_gap_of_continuesName {c : Char} (h : continuesName c = true) : isGap c = false := by
  rw [Bool.eq_false_iff]
  intro hgap
  simp only [isGap, Bool.or_eq_true, beq_iff_eq] at hgap
  rcases hgap with ((rfl | rfl) | rfl) | rfl <;> exact absurd h (by decide)

/-- Behind the first character of a word no symbol and no string starts. -/
theorem readToken_word {c : Char} (h : continuesName c = true) (rest : List Char) :
    readToken c rest =
      if c.isDigit then readNumber (c :: rest)
      else if startsName c then
        let lexeme := c :: rest.takeWhile continuesName
        .ok (word (String.ofList lexeme), lexeme, rest.dropWhile continuesName)
      else .error (.unexpectedCharacter c) := by
  have hlong : rest.head?.bind (longSymbol? c) = none := by
    cases rest with
    | nil => rfl
    | cons d more => exact longSymbol?_eq_none h d
  rw [readToken, hlong]
  dsimp only
  rw [shortSymbol?_eq_none h]
  dsimp only
  rw [not_quote_of_continuesName h, if_neg Bool.false_ne_true]

/-- A text behind a token: its end, or a space. -/
def AtSpace (rest : List Char) : Prop := ∀ c ∈ rest.head?, c = ' '

theorem AtSpace.not_continues {rest : List Char} (h : AtSpace rest) :
    ∀ c ∈ rest.head?, continuesName c = false := by
  intro c hc
  rw [h c hc]
  rfl

/-- A name ends where no character goes on with it. -/
theorem readToken_name {c : Char} {cs rest : List Char} (hstart : startsName c = true)
    (hnames : ∀ d ∈ cs, continuesName d = true) (hrest : ∀ d ∈ rest.head?, continuesName d = false) :
    readToken c (cs ++ rest) = .ok (word (String.ofList (c :: cs)), c :: cs, rest) := by
  have hdigit := not_digit_of_startsName hstart
  have hstop : rest.takeWhile continuesName = [] ∧ rest.dropWhile continuesName = rest := by
    cases rest with
    | nil => exact ⟨rfl, rfl⟩
    | cons d more =>
      have hd : ¬ continuesName d = true := by rw [hrest d rfl]; exact Bool.false_ne_true
      exact ⟨List.takeWhile_cons_of_neg hd, List.dropWhile_cons_of_neg hd⟩
  rw [readToken_word (continuesName_of_startsName hstart), hdigit, if_neg Bool.false_ne_true,
    if_pos hstart, List.takeWhile_append_of_pos hnames, List.dropWhile_append_of_pos hnames, hstop.1,
    hstop.2, List.append_nil]

/-! ## Numbers -/

theorem AtSpace.stops {rest : List Char} (h : AtSpace rest) : Stops rest := by
  intro c hc
  rw [h c hc]
  rfl

theorem splitFraction_atSpace {rest : List Char} (h : AtSpace rest) :
    splitFraction rest = (none, rest) := by
  cases rest with
  | nil => rfl
  | cons c more =>
    obtain rfl := h c rfl
    rfl

theorem readToken_number {k : Nat} {c : Char} {cs rest : List Char} (hk : k < Number.twoTo 63)
    (hwritten : (Nat.repr k).toList = c :: cs) (hrest : AtSpace rest) :
    readToken c (cs ++ rest) = .ok (.int (Int64.ofNat k), c :: cs, rest) := by
  have hdigits : ∀ d ∈ c :: cs, d.isDigit = true := by
    rw [← hwritten]
    exact fun d hd => isDigit_of_mem_repr hd
  have hc : c.isDigit = true := hdigits c List.mem_cons_self
  have hwhole := takeWhile_digits hdigits hrest.stops
  have hbehind := dropWhile_digits hdigits hrest.stops
  rw [List.cons_append] at hwhole hbehind
  have hvalue : Number.decimalValue (c :: cs) = k := by
    rw [← hwritten]
    exact decimalValue_repr k
  have htoken : numberToken (c :: cs) none = .ok (.int (Int64.ofNat k)) := by
    rw [numberToken, hvalue, if_pos hk]
  rw [readToken_word (continuesName_of_isDigit hc), if_pos hc, readNumber, hwhole, hbehind,
    splitFraction_atSpace hrest]
  dsimp only
  rw [htoken, fractionLexeme, List.append_nil]
  rfl

/-! ## Strings -/

section

variable {style : Style}

theorem Style.unescape_eq {c : Char} (h : style.escapes c = true) : unescape c = c := by
  rcases style.escapes_only c h with hquote | rfl
  · rcases isQuote_iff.1 hquote with rfl | rfl <;> rfl
  · rfl

/-- A character without a backslash before it is none of those that have a meaning in strings. -/
theorem Style.ne_of_not_escapes {c : Char} (h : ¬ style.escapes c = true) (s : String) :
    c ≠ '\\' ∧ c ≠ style.quote s := by
  constructor
  · rintro rfl
    exact h style.escapes_slash
  · rintro rfl
    exact h (style.escapes_quote s)

theorem readQuoted_escape (quote c : Char) (cs : List Char) :
    readQuoted quote ('\\' :: c :: cs) = (readQuoted quote cs).map fun (text, lexeme, rest) =>
      (unescape c :: text, '\\' :: c :: lexeme, rest) := by
  rw [readQuoted]

theorem readQuoted_char {quote c : Char} (hslash : c ≠ '\\') (hquote : c ≠ quote) (cs : List Char) :
    readQuoted quote (c :: cs) = (readQuoted quote cs).map fun (text, lexeme, rest) =>
      (c :: text, c :: lexeme, rest) := by
  rw [readQuoted, if_neg hslash, if_neg hquote]
  intro d more heq
  exact absurd heq hslash

theorem readQuoted_quote {quote : Char} (h : quote ≠ '\\') (rest : List Char) :
    readQuoted quote (quote :: rest) = some ([], [quote], rest) := by
  rw [readQuoted, if_neg h, if_pos rfl]
  intro d more heq
  exact absurd heq h

/-- What is written between quotes is read back. -/
theorem Style.readQuoted_escaped (style : Style) (s : String) (cs rest : List Char) :
    readQuoted (style.quote s) (style.escaped cs ++ style.quote s :: rest) =
      some (cs, style.escaped cs ++ [style.quote s], rest) := by
  have hquote := ne_slash_of_isQuote (style.quote_isQuote s)
  induction cs with
  | nil => exact readQuoted_quote hquote rest
  | cons c cs ih =>
    rw [Style.escaped]
    split
    · next hescaped =>
      rw [List.cons_append, List.cons_append, readQuoted_escape, ih, Style.unescape_eq hescaped]
      rfl
    · next hplain =>
      obtain ⟨hslash, hother⟩ := Style.ne_of_not_escapes hplain s
      rw [List.cons_append, readQuoted_char hslash hother, ih]
      rfl

/-! ## Tokens -/

theorem IsName.cons {s : String} (h : IsName s) : ∃ c rest, s.toList = c :: rest ∧
    startsName c = true ∧ ∀ d ∈ rest, continuesName d = true := by
  have hidentifier := h.1
  unfold isIdentifier at hidentifier
  split at hidentifier
  · next c rest hlist =>
    rw [Bool.and_eq_true, List.all_eq_true] at hidentifier
    exact ⟨c, rest, hlist, hidentifier⟩
  · simp at hidentifier

theorem IsName.word_eq {s : String} (h : IsName s) : word s = .name s := by
  have hother : ∀ reserved ∈ reservedWords, s ≠ reserved := by
    rintro reserved hmem rfl
    exact h.2 hmem
  rw [word, if_neg (hother "true" (by decide)), if_neg (hother "false" (by decide)),
    if_neg (hother "in" (by decide))]

/-- An integer that is not negative, as a number of 63 bits. -/
theorem exists_nat_of_nonneg {n : Int64} (h : 0 ≤ n) :
    ∃ k : Nat, n.toInt = k ∧ n = Int64.ofNat k ∧ k < Number.twoTo 63 := by
  obtain ⟨k, hk⟩ := Int.eq_ofNat_of_zero_le (Int64.le_iff_toInt_le.1 h)
  have hof : Int64.ofNat k = n := by
    rw [← Int64.ofInt_eq_ofNat, ← hk, Int64.ofInt_toInt]
  have hbound := Int64.toInt_lt n
  have htwo : Number.twoTo 63 = 2 ^ 63 := rfl
  exact ⟨k, hk, hof.symm, by omega⟩

/-- Symbols are read with what stands behind them in view; a space is part of none. -/
theorem readToken_symbol (s : Symbol) {rest : List Char} (hrest : AtSpace rest) :
    ∃ c cs, s.spelling.toList = c :: cs ∧ isGap c = false ∧
      readToken c (cs ++ rest) = .ok (.symbol s, s.spelling.toList, rest) := by
  cases rest with
  | nil => cases s <;> exact ⟨_, _, rfl, rfl, rfl⟩
  | cons c more =>
    obtain rfl := hrest c rfl
    cases s <;> exact ⟨_, _, rfl, rfl, rfl⟩

theorem not_gap_of_isQuote {c : Char} (h : isQuote c = true) : isGap c = false := by
  rcases isQuote_iff.1 h with rfl | rfl <;> rfl

/-- No symbol starts with a quote. -/
theorem readToken_quote {c : Char} (h : isQuote c = true) (rest : List Char) :
    readToken c rest =
      match readQuoted c rest with
      | some (text, lexeme, rest) => .ok (.str (String.ofList text), c :: lexeme, rest)
      | none => .error .unterminatedString := by
  have hquote : (c = '\'' || c = '"') = true := by
    rw [Bool.or_eq_true, decide_eq_true_eq, decide_eq_true_eq]
    exact isQuote_iff.1 h
  have hlong : rest.head?.bind (longSymbol? c) = none := by
    cases rest with
    | nil => rfl
    | cons d more => rcases isQuote_iff.1 h with rfl | rfl <;> rfl
  have hshort : shortSymbol? c = none := by
    rcases isQuote_iff.1 h with rfl | rfl <;> rfl
  rw [readToken, hlong]
  dsimp only
  rw [hshort]
  dsimp only
  exact if_pos hquote

/-! ## What is read -/

/-- What can be read at a character, with its own characters and the text behind it: a symbol of two
characters or of one, a string, a number, or a word. -/
inductive Reads (c : Char) : List Char → Token → List Char → List Char → Prop where
  | long {d : Char} {more : List Char} {s : Symbol} (h : longSymbol? c d = some s) :
      Reads c (d :: more) (.symbol s) [c, d] more
  | short {rest : List Char} {s : Symbol} (hlong : rest.head?.bind (longSymbol? c) = none)
      (h : shortSymbol? c = some s) : Reads c rest (.symbol s) [c] rest
  | quoted {rest text lexeme after : List Char} (hquote : isQuote c = true)
      (h : readQuoted c rest = some (text, lexeme, after)) :
      Reads c rest (.str (String.ofList text)) (c :: lexeme) after
  | number {rest lexeme after : List Char} {t : Token} (hdigit : c.isDigit = true)
      (h : readNumber (c :: rest) = .ok (t, lexeme, after)) : Reads c rest t lexeme after
  | spelled {rest : List Char} (hstart : startsName c = true) :
      Reads c rest (word (String.ofList (c :: rest.takeWhile continuesName)))
        (c :: rest.takeWhile continuesName) (rest.dropWhile continuesName)

theorem reads_of_readToken {c : Char} {rest lexeme after : List Char} {t : Token}
    (h : readToken c rest = .ok (t, lexeme, after)) : Reads c rest t lexeme after := by
  unfold readToken at h
  split at h
  · next s hlong =>
    obtain ⟨d, hd, hsymbol⟩ := Option.bind_eq_some_iff.1 hlong
    obtain ⟨more, rfl⟩ := List.head?_eq_some_iff.1 hd
    simp only [Except.ok.injEq, Prod.mk.injEq] at h
    obtain ⟨rfl, rfl, rfl⟩ := h
    exact .long hsymbol
  · next hlong =>
    split at h
    · next s hshort =>
      simp only [Except.ok.injEq, Prod.mk.injEq] at h
      obtain ⟨rfl, rfl, rfl⟩ := h
      exact .short hlong hshort
    · split at h
      · next hquote =>
        rw [Bool.or_eq_true, decide_eq_true_eq, decide_eq_true_eq, ← isQuote_iff] at hquote
        split at h
        · next hread =>
          simp only [Except.ok.injEq, Prod.mk.injEq] at h
          obtain ⟨rfl, rfl, rfl⟩ := h
          exact .quoted hquote hread
        · simp at h
      · split at h
        · next hdigit => exact .number hdigit h
        · split at h
          · next hstart =>
            simp only [Except.ok.injEq, Prod.mk.injEq] at h
            obtain ⟨rfl, rfl, rfl⟩ := h
            exact .spelled hstart
          · simp at h

theorem Reads.readToken_eq {c : Char} {rest lexeme after : List Char} {t : Token}
    (h : Reads c rest t lexeme after) : readToken c rest = .ok (t, lexeme, after) := by
  cases h with
  | long h => simp [readToken, h]
  | short hlong h => rw [readToken, hlong]; dsimp only; rw [h]
  | quoted hquote h => rw [readToken_quote hquote, h]
  | number hdigit h => rw [readToken_word (continuesName_of_isDigit hdigit), if_pos hdigit, h]
  | spelled hstart =>
    rw [readToken_word (continuesName_of_startsName hstart), not_digit_of_startsName hstart,
      if_neg Bool.false_ne_true, if_pos hstart]

/-- **A token is read back as it is written.** -/
theorem Style.readToken_write (style : Style) {t : Token} (ht : t.IsPortable) {rest : List Char}
    (hrest : AtSpace rest) :
    ∃ c cs, style.write t = c :: cs ∧ isGap c = false ∧
      readToken c (cs ++ rest) = .ok (t, style.write t, rest) := by
  cases t with
  | name s =>
    obtain ⟨c, cs, hlist, hstart, hnames⟩ := IsName.cons ht
    have hwrite : style.write (.name s) = c :: cs := hlist
    have hword : word (String.ofList (c :: cs)) = .name s := by
      rw [← hlist, String.ofList_toList, IsName.word_eq ht]
    refine ⟨c, cs, hwrite, not_gap_of_continuesName (continuesName_of_startsName hstart), ?_⟩
    rw [readToken_name hstart hnames hrest.not_continues, hword, hwrite]
  | str s =>
    have hquote := style.quote_isQuote s
    refine ⟨style.quote s, style.escaped s.toList ++ [style.quote s], rfl, not_gap_of_isQuote hquote,
      ?_⟩
    have hread := style.readQuoted_escaped s s.toList rest
    rw [readToken_quote hquote, List.append_assoc, List.singleton_append, hread]
    dsimp only
    rw [String.ofList_toList]
    rfl
  | int n =>
    obtain ⟨k, hk, rfl, hbound⟩ := exists_nat_of_nonneg ht
    obtain ⟨c, cs, hc, hdigits⟩ := repr_cons k
    have hwrite : style.write (.int (Int64.ofNat k)) = c :: cs := by
      show (toString (Int64.ofNat k).toInt).toList = c :: cs
      rw [hk]
      exact hdigits
    refine ⟨c, cs, hwrite, not_gap_of_continuesName (continuesName_of_isDigit hc), ?_⟩
    rw [readToken_number hbound hdigits hrest, hwrite]
  | float x => exact ht.elim
  | bool b =>
    cases b with
    | true =>
      have hword : ∀ c ∈ ['r', 'u', 'e'], continuesName c = true := List.all_eq_true.1 rfl
      exact ⟨'t', ['r', 'u', 'e'], rfl, rfl, readToken_name rfl hword hrest.not_continues⟩
    | false =>
      have hword : ∀ c ∈ ['a', 'l', 's', 'e'], continuesName c = true := List.all_eq_true.1 rfl
      exact ⟨'f', ['a', 'l', 's', 'e'], rfl, rfl, readToken_name rfl hword hrest.not_continues⟩
  | isIn =>
    have hword : ∀ c ∈ ['n'], continuesName c = true := List.all_eq_true.1 rfl
    exact ⟨'i', ['n'], rfl, rfl, readToken_name rfl hword hrest.not_continues⟩
  | symbol s => exact readToken_symbol s hrest

/-! ## Texts -/

/-- The characters of tokens, with a space before each. -/
def Style.spaced (style : Style) (ts : List Token) : List Char :=
  ts.flatMap fun t => ' ' :: style.write t

theorem Style.spaced_nil (style : Style) : style.spaced [] = [] := rfl

theorem Style.spaced_cons (style : Style) (t : Token) (ts : List Token) :
    style.spaced (t :: ts) = ' ' :: (style.write t ++ style.spaced ts) := rfl

theorem Style.intercalate_write (style : Style) (t : Token) (ts : List Token) :
    [' '].intercalate ((t :: ts).map style.write) = style.write t ++ style.spaced ts := by
  induction ts generalizing t with
  | nil => simp [spaced]
  | cons next more ih =>
    rw [List.map_cons, List.map_cons, List.intercalate_cons_cons, ← List.map_cons, ih next]
    simp [spaced]

theorem Style.atSpace_spaced (style : Style) (ts : List Token) : AtSpace (style.spaced ts) := by
  intro c hc
  cases ts with
  | nil => simp [Style.spaced] at hc
  | cons t more => exact (Option.some.inj hc).symm

theorem tokensFrom_gap {c : Char} (h : isGap c = true) (offset : Nat) (rest : List Char) :
    tokensFrom offset (c :: rest) = tokensFrom (offset + 1) rest := by
  rw [tokensFrom, if_pos h]

theorem tokensFrom_token {c : Char} {rest lexeme after : List Char} {t : Token}
    (hgap : isGap c = false) (hread : readToken c rest = .ok (t, lexeme, after)) (offset : Nat) :
    tokensFrom offset (c :: rest) =
      (tokensFrom (offset + Text.byteLength lexeme) after).map (⟨t, offset⟩ :: ·) := by
  rw [tokensFrom, if_neg (by rw [hgap]; exact Bool.false_ne_true)]
  split
  · next hfault =>
    rw [hread] at hfault
    simp at hfault
  · next hok =>
    rw [hread] at hok
    obtain ⟨rfl, rfl, rfl⟩ := Except.ok.inj hok
    rfl

/-- The first of written tokens is read. -/
theorem Style.tokensFrom_first (style : Style) {t : Token} (ht : t.IsPortable) (ts : List Token)
    (offset : Nat) :
    tokensFrom offset (style.write t ++ style.spaced ts) =
      (tokensFrom (offset + Text.byteLength (style.write t)) (style.spaced ts)).map
        (⟨t, offset⟩ :: ·) := by
  obtain ⟨c, cs, hwrite, hgap, hread⟩ := style.readToken_write ht (style.atSpace_spaced ts)
  have hfirst := tokensFrom_token hgap hread offset
  rwa [← List.cons_append, ← hwrite] at hfirst

/-- Tokens that are written with spaces between them are read back. -/
theorem Style.tokensFrom_write (style : Style) {t : Token} {ts : List Token} (h : ∀ u ∈ t :: ts, u.IsPortable)
    (offset : Nat) : ∃ placed, tokensFrom offset (style.write t ++ style.spaced ts) = .ok placed ∧
      Expr.bare placed = t :: ts := by
  induction ts generalizing t offset with
  | nil =>
    refine ⟨[⟨t, offset⟩], ?_, rfl⟩
    rw [style.tokensFrom_first (h t List.mem_cons_self), Style.spaced_nil, tokensFrom]
    rfl
  | cons next more ih =>
    rw [List.forall_mem_cons] at h
    obtain ⟨placed, hplaced, hbare⟩ := ih h.2 (offset + Text.byteLength (style.write t) + 1)
    refine ⟨⟨t, offset⟩ :: placed, ?_, ?_⟩
    · rw [style.tokensFrom_first h.1, Style.spaced_cons, tokensFrom_gap rfl, hplaced]
      rfl
    · rw [Expr.bare_cons, hbare]

/-- **The tokens of a text are those it was written from.** -/
theorem tokens_write (style : Style) {ts : List Token} (h : ∀ t ∈ ts, t.IsPortable) :
    ∃ placed, tokens (String.ofList ([' '].intercalate (ts.map style.write))) = .ok placed ∧
      Expr.bare placed = ts := by
  rw [tokens, String.toList_ofList]
  cases ts with
  | nil => exact ⟨[], by rw [List.map_nil, List.intercalate_nil, tokensFrom], rfl⟩
  | cons t more =>
    rw [style.intercalate_write]
    exact style.tokensFrom_write h 0

/-! ## References -/

/-- What is written for a token other than a string: no quote, and a dot alone or none. -/
theorem Style.write_plain (style : Style) {t : Token} (ht : t.IsPortable) (hstring : ∀ s, t ≠ .str s) :
    (∀ c ∈ style.write t, isQuote c = false) ∧ (style.write t = ['.'] ∨ '.' ∉ style.write t) := by
  have hword : ∀ cs : List Char, (∀ c ∈ cs, continuesName c = true) →
      (∀ c ∈ cs, isQuote c = false) ∧ (cs = ['.'] ∨ '.' ∉ cs) := by
    intro cs hcs
    refine ⟨fun c hc => ?_, Or.inr fun hdot => absurd (hcs '.' hdot) (by decide)⟩
    rw [Bool.eq_false_iff]
    intro hquote
    rcases isQuote_iff.1 hquote with rfl | rfl <;> exact absurd (hcs _ hc) (by decide)
  cases t with
  | name s =>
    obtain ⟨c, cs, hlist, hstart, hnames⟩ := IsName.cons ht
    have hwrite : style.write (.name s) = c :: cs := hlist
    rw [hwrite]
    exact hword _ (List.forall_mem_cons.2 ⟨continuesName_of_startsName hstart, hnames⟩)
  | str s => exact absurd rfl (hstring s)
  | int n =>
    obtain ⟨k, hk, rfl, -⟩ := exists_nat_of_nonneg ht
    have hwrite : style.write (.int (Int64.ofNat k)) = (Nat.repr k).toList := by
      show (toString (Int64.ofNat k).toInt).toList = (Nat.repr k).toList
      rw [hk]
      rfl
    rw [hwrite]
    exact hword _ fun c hc => continuesName_of_isDigit (isDigit_of_mem_repr hc)
  | float x => exact ht.elim
  | bool b =>
    cases b with
    | true => exact hword ['t', 'r', 'u', 'e'] (List.all_eq_true.1 rfl)
    | false => exact hword ['f', 'a', 'l', 's', 'e'] (List.all_eq_true.1 rfl)
  | isIn => exact hword ['i', 'n'] (List.all_eq_true.1 rfl)
  | symbol s =>
    have hquotes : ∀ c ∈ s.spelling.toList, (!isQuote c) = true :=
      List.all_eq_true.1 (by cases s <;> rfl)
    have hdot : s.spelling.toList = ['.'] ∨ '.' ∉ s.spelling.toList := by
      cases s with
      | dot => exact Or.inl rfl
      | _ => exact Or.inr (by simp [Symbol.spelling])
    refine ⟨fun c hc => ?_, hdot⟩
    rw [← Bool.not_eq_true', hquotes c hc]

theorem Style.splitQuoted_escaped (style : Style) (s : String) (cs rest : List Char) :
    splitQuoted (style.quote s) (style.escaped cs ++ style.quote s :: rest) =
      (style.escaped cs ++ [style.quote s], rest) := by
  have hquote := ne_slash_of_isQuote (style.quote_isQuote s)
  induction cs with
  | nil => exact splitQuoted_quote hquote rest
  | cons c cs ih =>
    rw [Style.escaped]
    split
    · rw [List.cons_append, List.cons_append, splitQuoted_escape, ih]
      rfl
    · next hplain =>
      obtain ⟨hslash, hother⟩ := Style.ne_of_not_escapes hplain s
      rw [List.cons_append, splitQuoted_char hslash hother, ih]
      rfl

theorem loose_cons (c : Char) {cs : List Char} (h : '.' ∉ cs) : Loose (c :: cs) := by
  induction cs generalizing c with
  | nil => exact List.isChain_singleton c
  | cons next more ih =>
    rw [List.mem_cons, not_or] at h
    exact List.isChain_cons_cons.2 ⟨fun hnext => absurd hnext.symm h.1, ih next h.2⟩

/-- A word behind a space leaves a text loose. -/
theorem Loose.word {plain w : List Char} (h : Loose plain) (hw : w = ['.'] ∨ '.' ∉ w) :
    Loose (plain ++ ' ' :: w) := by
  have hword : Loose (' ' :: w) := by
    rcases hw with rfl | hdot
    · exact List.isChain_pair.2 fun _ => rfl
    · exact loose_cons ' ' hdot
  refine List.isChain_append.2 ⟨h, hword, ?_⟩
  intro last _ first hfirst hdot
  rw [List.head?_cons, Option.mem_some_iff] at hfirst
  rw [← hfirst] at hdot
  exact absurd hdot (by decide)

theorem Style.joinReferencesIn_spaced (style : Style) {ts : List Token} (h : ∀ t ∈ ts, t.IsPortable)
    {plain : List Char} (hplain : ∀ c ∈ plain, isQuote c = false) (hloose : Loose plain) :
    joinReferencesIn (plain ++ style.spaced ts) = plain ++ style.spaced ts := by
  induction ts generalizing plain with
  | nil =>
    rw [Style.spaced_nil, List.append_nil, joinReferencesIn_plain hplain, hloose.joinUnquoted_eq]
  | cons t more ih =>
    rw [List.forall_mem_cons] at h
    by_cases hstring : ∃ s, t = .str s
    · -- the text before the string is joined alone, the string is left alone
      obtain ⟨s, rfl⟩ := hstring
      have hspaced : style.spaced (.str s :: more) =
          ' ' :: style.quote s :: (style.escaped s.toList ++ style.quote s :: style.spaced more) := by
        rw [Style.spaced_cons, Style.write]
        simp
      have hbefore : ∀ c ∈ plain ++ [' '], isQuote c = false := by
        rw [List.forall_mem_append, List.forall_mem_singleton]
        exact ⟨hplain, rfl⟩
      have hrest : joinReferencesIn ([] ++ style.spaced more) = [] ++ style.spaced more :=
        ih h.2 (by simp) List.isChain_nil
      rw [List.nil_append] at hrest
      have hjoin := (hloose.word (w := []) (Or.inr (by simp))).joinUnquoted_eq true
      rw [hspaced, List.append_cons, joinReferencesIn_quoted hbefore (style.quote_isQuote s),
        style.splitQuoted_escaped, hrest, hjoin]
      simp
    · have hword := style.write_plain h.1 fun s heq => hstring ⟨s, heq⟩
      have hnext : ∀ c ∈ plain ++ ' ' :: style.write t, isQuote c = false := by
        rw [List.forall_mem_append, List.forall_mem_cons]
        exact ⟨hplain, rfl, hword.1⟩
      have hrest := ih h.2 hnext (hloose.word hword.2)
      rw [List.append_assoc, List.cons_append] at hrest
      exact hrest

/-- **A written text has no references to join.** -/
theorem Style.joinReferences_write (style : Style) {ts : List Token} (h : ∀ t ∈ ts, t.IsPortable) :
    joinReferences (String.ofList ([' '].intercalate (ts.map style.write))) =
      String.ofList ([' '].intercalate (ts.map style.write)) := by
  rw [joinReferences, String.toList_ofList]
  cases ts with
  | nil => rw [List.map_nil, List.intercalate_nil, joinReferencesIn_nil]
  | cons t more =>
    have hspaced : joinReferencesIn ([] ++ style.spaced (t :: more)) = [] ++ style.spaced (t :: more) :=
      style.joinReferencesIn_spaced h (by simp) List.isChain_nil
    rw [List.nil_append, Style.spaced_cons, joinReferencesIn_space] at hspaced
    rw [style.intercalate_write, (List.cons.inj hspaced).2]

end

end AccessControl
