import AccessControl.Expr.Scanning
import AccessControl.Proofs.Expr.Literals
/-!
# A scan finds the tokens

Between two characters a scan of the bytes and the reading of the characters behind are in step.  Every character
that a token starts or goes on with is one byte long, and no byte of a longer character is such a
character, so a scan stops where the reading does: at boundaries, at which the text can be cut.

    Scan.token at a boundary = readToken of the characters behind it          (`Scan.token_eq`)
    scan text = tokens text, and nothing is cut inside a character            (`scan_eq`)
    joinBySlices text = joinReferences text                                   (`joinBySlices_eq`)
-/

namespace AccessControl

open Text

variable {s : String} {offset : Nat} {cs rest : List Char} {c : Char}

/-! ## Kinds of characters -/

theorem oneByte_continuesName : OneByte continuesName := by
  intro c h
  simp only [continuesName, Char.isAlphanum, Char.isAlpha, Char.isUpper, Char.isLower, Char.isDigit,
    Bool.or_eq_true, Bool.and_eq_true, beq_iff_eq, decide_eq_true_eq, UInt32.le_iff_toNat_le, ge_iff_le] at h
  change c.val.toNat < 128
  have hz : 'z'.val.toNat = 122 := rfl
  have hupper : 'Z'.val.toNat = 90 := rfl
  have hnine : '9'.val.toNat = 57 := rfl
  rcases h with rfl | h
  · decide
  · omega

theorem oneByte_isDigit : OneByte Char.isDigit := fun c h => oneByte_continuesName c (continuesName_of_isDigit h)

theorem oneByte_startsName : OneByte startsName := fun c h =>
  oneByte_continuesName c (continuesName_of_startsName h)

theorem oneByte_isQuote : OneByte isQuote := by
  intro c h
  rcases isQuote_iff.1 h with rfl | rfl <;> decide

theorem oneByte_isGap : OneByte isGap := by
  intro c h
  simp only [isGap, Bool.or_eq_true, beq_iff_eq] at h
  rcases h with ((rfl | rfl) | rfl) | rfl <;> decide

theorem oneByte_longSymbol {c d : Char} {symbol : Symbol} (h : longSymbol? c d = some symbol) :
    c.toNat < 128 ∧ d.toNat < 128 := by
  unfold longSymbol? at h
  split at h <;> first | exact ⟨by decide, by decide⟩ | simp at h

theorem oneByte_shortSymbol {c : Char} {symbol : Symbol} (h : shortSymbol? c = some symbol) : c.toNat < 128 := by
  unfold shortSymbol? at h
  split at h <;> first | decide | simp at h

/-- The second character of a symbol is seen in its byte. -/
theorem bind_byteAt? (h : Behind s offset cs) (c : Char) :
    (byteAt? s offset).bind (longSymbol? c) = cs.head?.bind (longSymbol? c) := by
  refine Option.ext fun symbol => ?_
  rw [Option.bind_eq_some_iff, Option.bind_eq_some_iff]
  constructor
  · rintro ⟨d, hd, hsymbol⟩
    exact ⟨d, (h.byteAt?_eq_some_iff (oneByte_longSymbol hsymbol).2).1 hd, hsymbol⟩
  · rintro ⟨d, hd, hsymbol⟩
    exact ⟨d, (h.byteAt?_eq_some_iff (oneByte_longSymbol hsymbol).2).2 hd, hsymbol⟩

namespace Scan

/-! ## Ends of tokens -/

/-- What is skipped is the longest run of characters of a kind. -/
theorem skipWhile_eq {p : Char → Bool} (hp : OneByte p) (h : Behind s offset cs) :
    skipWhile p s offset = offset + byteLength (cs.takeWhile p) := by
  induction cs generalizing offset with
  | nil =>
    have hany := h.any_byteAt? hp
    rw [skipWhile, if_neg (by simp [hany]), List.takeWhile_nil]
    rfl
  | cons c cs ih =>
    rw [skipWhile, h.any_byteAt? hp]
    cases hc : p c with
    | false =>
      rw [if_neg (by simp [hc]), List.takeWhile_cons_of_neg (by simp [hc])]
      rfl
    | true =>
      rw [if_pos ⟨h.lt, hc⟩, ih (h.next (hp c hc)), List.takeWhile_cons_of_pos hc, byteLength,
        utf8Size_oneByte (hp c hc), Nat.add_assoc]

/-- A closing quote is found where the literal ends. -/
theorem closeQuote_eq (quote : Char) (cs text : List Char) (offset : Nat) :
    closeQuote quote false text offset cs =
      (readQuoted quote cs).map fun found => (text ++ found.1, offset + byteLength found.2.1) := by
  have hslash : '\\'.utf8Size = 1 := rfl
  fun_induction readQuoted quote cs generalizing text offset with
  | case1 => rfl
  | case2 c rest ih =>
    simp only [closeQuote, Bool.false_eq_true, if_false, if_true, ih, Option.map_map]
    congr 1
    funext found
    obtain ⟨t, lexeme, more⟩ := found
    simp [byteLength, Nat.add_assoc]
  | case3 rest hlast =>
    cases rest with
    | nil => rfl
    | cons d more => exact absurd rfl (hlast d more rfl)
  | case4 rest _ hne =>
    simp [closeQuote, hne, byteLength]
  | case5 c rest _ hne hquote ih =>
    simp only [closeQuote, Bool.false_eq_true, if_false, if_neg hne, if_neg hquote, ih, Option.map_map]
    congr 1
    funext found
    obtain ⟨t, lexeme, more⟩ := found
    simp [byteLength, Nat.add_assoc]

/-! ## One token -/

/-- A token as a scan finds it, from the token as it is read: the offset of its end takes the place of its
characters and of the text behind it. -/
def answerAt (start : Nat) : Except SyntaxFault (Token × List Char × List Char) → Except Halt (Token × Nat)
  | .ok (t, lexeme, _) => .ok (t, start + byteLength lexeme)
  | .error fault => .error (.fault (.malformed start fault))

theorem string_eq (h : Behind s offset (c :: rest)) :
    string s offset = answerAt offset
      (match readQuoted c rest with
        | some (text, lexeme, rest) => .ok (.str (String.ofList text), c :: lexeme, rest)
        | none => .error .unterminatedString) := by
  rw [string, h.sliceFrom_eq]
  dsimp only
  rw [String.toList_ofList]
  dsimp only
  rw [closeQuote_eq]
  cases readQuoted c rest with
  | none => rfl
  | some found => simp [answerAt, byteLength, Nat.add_assoc]

/-- What is between two offsets is read as the characters there. -/
theorem between_eq {part behind : List Char} (h : Behind s offset (part ++ behind))
    (read : String → Except SyntaxFault Token) :
    between s offset (offset + byteLength part) read =
      answerAt offset ((read (String.ofList part)).map fun t => (t, part, behind)) := by
  rw [between, h.slice_eq]
  dsimp only
  cases read (String.ofList part) <;> rfl

/-- A point with a digit behind it, in the bytes and in the characters. -/
theorem point_iff (h : Behind s offset cs) :
    (byteAt? s offset = some '.' ∧ (byteAt? s (offset + 1)).any Char.isDigit = true) ↔
      ∃ more, cs = '.' :: more ∧ more.head?.any Char.isDigit = true := by
  have hmore : ∀ {more}, cs = '.' :: more →
      (byteAt? s (offset + 1)).any Char.isDigit = more.head?.any Char.isDigit := by
    rintro more rfl
    exact (h.next (by decide)).any_byteAt? oneByte_isDigit
  rw [h.byteAt?_eq_some_iff (by decide), List.head?_eq_some_iff]
  constructor
  · rintro ⟨⟨more, hcs⟩, hdigit⟩
    exact ⟨more, hcs, by rwa [← hmore hcs]⟩
  · rintro ⟨more, hcs, hdigit⟩
    exact ⟨⟨more, hcs⟩, by rwa [hmore hcs]⟩

theorem splitFraction_of_none (h : ¬ ∃ more, cs = '.' :: more ∧ more.head?.any Char.isDigit = true) :
    splitFraction cs = (none, cs) := by
  unfold splitFraction
  split
  · next more => rw [if_neg fun hdigit => h ⟨more, rfl, hdigit⟩]
  · rfl

theorem number_eq (h : Behind s offset cs) : number s offset = answerAt offset (readNumber cs) := by
  have hdigits : ∀ d ∈ cs.takeWhile Char.isDigit, d.isDigit = true := fun _ hd => List.mem_takeWhile_imp hd
  have hparts : Behind s offset (cs.takeWhile Char.isDigit ++ cs.dropWhile Char.isDigit) := by
    rwa [List.takeWhile_append_dropWhile]
  have hbehind := hparts.append
  unfold number
  dsimp only
  rw [skipWhile_eq oneByte_isDigit h, readNumber]
  dsimp only
  by_cases hpoint : ∃ more, cs.dropWhile Char.isDigit = '.' :: more ∧ more.head?.any Char.isDigit = true
  · rw [if_pos ((point_iff hbehind).2 hpoint)]
    obtain ⟨more, hmore, hdigit⟩ := hpoint
    rw [hmore] at hparts hbehind ⊢
    -- digits, the point and more digits are one part of the text
    have hwhole : Behind s offset ((cs.takeWhile Char.isDigit ++ '.' :: more.takeWhile Char.isDigit) ++
        more.dropWhile Char.isDigit) := by
      rwa [List.append_assoc, List.cons_append, List.takeWhile_append_dropWhile]
    have hend : offset + byteLength (cs.takeWhile Char.isDigit) + 1 + byteLength (more.takeWhile Char.isDigit) =
        offset + byteLength (cs.takeWhile Char.isDigit ++ '.' :: more.takeWhile Char.isDigit) := by
      rw [byteLength_append, byteLength, utf8Size_oneByte (by decide)]
      omega
    rw [skipWhile_eq oneByte_isDigit (hbehind.next (by decide)), hend, between_eq hwhole, splitFraction,
      if_pos hdigit, fractionOf, String.toList_ofList, List.takeWhile_append_of_pos hdigits,
      List.dropWhile_append_of_pos hdigits, List.takeWhile_cons_of_neg (by decide),
      List.dropWhile_cons_of_neg (by decide), List.append_nil]
    rfl
  · rw [if_neg ((point_iff hbehind).not.2 hpoint), splitFraction_of_none hpoint, between_eq hparts, integerOf,
      String.toList_ofList]
    dsimp only
    rw [fractionLexeme, List.append_nil]

/-! ## Characters of more than one byte -/

theorem longSymbol?_of_long (hc : 128 ≤ c.toNat) (next? : Option Char) : next?.bind (longSymbol? c) = none := by
  rw [Option.eq_none_iff_forall_ne_some]
  intro symbol hsymbol
  obtain ⟨d, -, hd⟩ := Option.bind_eq_some_iff.1 hsymbol
  exact absurd (oneByte_longSymbol hd).1 (by omega)

theorem shortSymbol?_of_long (hc : 128 ≤ c.toNat) : shortSymbol? c = none := by
  rw [Option.eq_none_iff_forall_ne_some]
  intro symbol hsymbol
  exact absurd (oneByte_shortSymbol hsymbol) (by omega)

theorem not_quote_of_long (hc : 128 ≤ c.toNat) : (c = '\'' || c = '"') = false := by
  have hquote := oneByte_isQuote.eq_false hc
  rw [isQuote, Bool.or_eq_false_iff, beq_eq_false_iff_ne, beq_eq_false_iff_ne] at hquote
  simpa using hquote

/-- No token starts with such a character, -/
theorem readToken_of_long (hc : 128 ≤ c.toNat) (rest : List Char) :
    readToken c rest = .error (.unexpectedCharacter c) := by
  rw [readToken, longSymbol?_of_long hc]
  dsimp only
  rw [shortSymbol?_of_long hc]
  dsimp only
  rw [not_quote_of_long hc, oneByte_isDigit.eq_false hc, oneByte_startsName.eq_false hc]
  rfl

/-- nor with its first byte. -/
theorem token_of_long {byte : Char} (hbyte : 128 ≤ byte.toNat) (h : Behind s offset (c :: rest)) :
    token s offset byte = .error (.fault (.malformed offset (.unexpectedCharacter c))) := by
  rw [token, longSymbol?_of_long hbyte]
  dsimp only
  rw [shortSymbol?_of_long hbyte]
  dsimp only
  rw [not_quote_of_long hbyte, oneByte_isDigit.eq_false hbyte, oneByte_startsName.eq_false hbyte,
    if_neg Bool.false_ne_true, if_neg Bool.false_ne_true, if_neg Bool.false_ne_true, h.sliceFrom_eq]
  dsimp only
  rw [String.toList_ofList]
  rfl

/-! ## All tokens -/

/-- The token at an offset. -/
theorem token_eq {byte : Char} (h : Behind s offset (c :: rest)) (hbyte : byteAt? s offset = some byte) :
    token s offset byte = answerAt offset (readToken c rest) := by
  obtain ⟨found, hfound, hshows⟩ := h.exists_byteAt?
  obtain rfl : found = byte := Option.some.inj (hfound.symm.trans hbyte)
  rcases hshows with ⟨rfl, hone⟩ | ⟨hbyte, hc⟩
  · have hsize := utf8Size_oneByte hone
    rw [token, readToken, bind_byteAt? (h.next hone)]
    cases hlong : rest.head?.bind (longSymbol? found) with
    | some symbol =>
      obtain ⟨d, hd, hsymbol⟩ := Option.bind_eq_some_iff.1 hlong
      obtain ⟨more, rfl⟩ := List.head?_eq_some_iff.1 hd
      simp [answerAt, byteLength, hsize, utf8Size_oneByte (oneByte_longSymbol hsymbol).2]
    | none =>
      dsimp only
      cases shortSymbol? found with
      | some symbol => simp [answerAt, byteLength, hsize]
      | none =>
        dsimp only
        split
        · exact string_eq h
        · split
          · exact number_eq h
          · split
            · next hstart =>
              have hword : (found :: rest).takeWhile continuesName = found :: rest.takeWhile continuesName :=
                List.takeWhile_cons_of_pos (continuesName_of_startsName hstart)
              have hparts : Behind s offset ((found :: rest.takeWhile continuesName) ++
                  rest.dropWhile continuesName) := by
                rwa [List.cons_append, List.takeWhile_append_dropWhile]
              rw [skipWhile_eq oneByte_continuesName h, hword, between_eq hparts]
              rfl
            · rw [h.sliceFrom_eq]
              dsimp only
              rw [String.toList_ofList]
              rfl
  · rw [token_of_long hbyte h, readToken_of_long hc]
    rfl

end Scan

/-- Behind a gap the text goes on at the next offset, -/
theorem Text.Behind.gap (h : Behind s offset (c :: rest)) (hgap : isGap c = true) : Behind s (offset + 1) rest :=
  h.next (oneByte_isGap c hgap)

/-- and behind a token at the one that its bytes lead to. -/
theorem Text.Behind.token {t : Token} {lexeme behind : List Char} (h : Behind s offset (c :: rest))
    (hread : readToken c rest = .ok (t, lexeme, behind)) : Behind s (offset + byteLength lexeme) behind := by
  rw [← (readToken_append hread).1] at h
  exact h.append

/-- One step of a scan reads one token. -/
theorem scanFrom_cons (h : Behind s offset (c :: rest)) :
    scanFrom s offset =
      if isGap c then scanFrom s (offset + 1)
      else
        match Scan.answerAt offset (readToken c rest) with
        | .error halt => .error halt
        | .ok (t, stop) => (scanFrom s stop).map (⟨t, offset⟩ :: ·) := by
  obtain ⟨byte, hbyte, hshows⟩ := h.exists_byteAt?
  have htoken := Scan.token_eq h hbyte
  rw [scanFrom, dif_pos h.lt]
  split
  · next hnone =>
    rw [hbyte] at hnone
    simp at hnone
  · next found hfound =>
    obtain rfl : byte = found := Option.some.inj (hbyte.symm.trans hfound)
    rw [hshows.eq_of_oneByte oneByte_isGap, ← htoken]
    split
    · rfl
    · split <;> (next heq => rw [heq])

/-- From a boundary on, a scan finds the tokens of the characters behind it. -/
theorem scanFrom_eq (h : Behind s offset cs) : scanFrom s offset = (tokensFrom offset cs).mapError Halt.fault := by
  fun_induction tokensFrom offset cs with
  | case1 offset =>
    have hend : offset = s.utf8ByteSize := h.offset_add
    rw [scanFrom, dif_neg (by omega)]
    rfl
  | case2 offset c rest hgap ih => rw [scanFrom_cons h, if_pos hgap, ih (h.gap hgap)]
  | case3 offset c rest hgap fault hread =>
    rw [scanFrom_cons h, if_neg hgap, hread]
    rfl
  | case4 offset c rest hgap t lexeme behind hread ih =>
    rw [scanFrom_cons h, if_neg hgap, hread]
    dsimp only [Scan.answerAt]
    rw [ih (h.token hread)]
    cases tokensFrom (offset + byteLength lexeme) behind <;> rfl

/-- **A scan finds the tokens of a text, and cuts it nowhere else than at boundaries.** -/
theorem scan_eq (text : String) : scan text = (tokens text).mapError Halt.fault :=
  scanFrom_eq (behind_zero text)

/-! ## References -/

/-- A literal without a closing quote is all of the text. -/
theorem splitQuoted_of_not_closed {quote : Char} {cs : List Char} (h : readQuoted quote cs = none) :
    splitQuoted quote cs = (cs, []) := by
  fun_induction readQuoted quote cs with
  | case1 => rw [splitQuoted]
  | case2 c rest ih => rw [splitQuoted_escape, ih (Option.map_eq_none_iff.1 h)]
  | case3 rest hlast =>
    cases rest with
    | nil => simp [splitQuoted]
    | cons d more => exact absurd rfl (hlast d more rfl)
  | case4 => simp at h
  | case5 c rest _ hslash hquote ih => rw [splitQuoted_char hslash hquote, ih (Option.map_eq_none_iff.1 h)]

/-- The bytes of a literal are those of its characters. -/
theorem quotedLength_eq {quote : Char} (hquote : isQuote quote = true) (rest : List Char) :
    quotedLength (String.ofList (quote :: rest)) = byteLength (quote :: (splitQuoted quote rest).1) := by
  rw [quotedLength, String.toList_ofList]
  dsimp only
  rw [Scan.closeQuote_eq]
  cases hread : readQuoted quote rest with
  | none =>
    rw [splitQuoted_of_not_closed hread, Option.map_none, Option.map_none, Option.getD_none, utf8ByteSize_eq,
      String.toList_ofList]
  | some found =>
    obtain ⟨text, lexeme, behind⟩ := found
    rw [splitQuoted_of_readQuoted (ne_slash_of_isQuote hquote) hread]
    rfl

/-- One step of joining copies one literal. -/
theorem joinBySlices_quoted {plain : List Char} {quote : Char} (hs : s.toList = plain ++ quote :: rest)
    (hplain : ∀ d ∈ plain, isQuote d = false) (hquote : isQuote quote = true) :
    joinBySlices s = (joinBySlices (String.ofList (splitQuoted quote rest).2)).map fun joined =>
      String.ofList (joinUnquoted true plain) ++ String.ofList (quote :: (splitQuoted quote rest).1) ++ joined := by
  have hopen := offsetOf?_eq hs hplain hquote
  have hlength := quotedLength_eq hquote rest
  have hstart : Behind s 0 (plain ++ quote :: rest) := hs ▸ behind_zero s
  have hfront := hstart.slice_eq
  have hliteral := hstart.append
  rw [Nat.zero_add] at hfront hliteral
  have hbehind := hliteral.sliceFrom_eq
  rw [← splitQuoted_append quote rest, ← List.cons_append] at hliteral
  have hmore := hliteral.append.sliceFrom_eq
  rw [joinBySlices]
  split
  · next hnone => simp [hopen] at hnone
  · next start hfound =>
    obtain rfl : byteLength plain = start := Option.some.inj (hopen.symm.trans hfound)
    rw [hfront]
    dsimp only
    split
    · next hbad => simp [hbehind] at hbad
    · next behind hcut =>
      obtain rfl : String.ofList (quote :: rest) = behind := Except.ok.inj (hbehind.symm.trans hcut)
      rw [hlength, hliteral.slice_eq]
      dsimp only
      split
      · next hbad => simp [hmore] at hbad
      · next more hcut =>
        obtain rfl : String.ofList (splitQuoted quote rest).2 = more := Except.ok.inj (hmore.symm.trans hcut)
        rw [joinPlain, String.toList_ofList]

/-- **Joining piece by piece joins all, and cuts the text nowhere else than at boundaries.** -/
theorem joinBySlices_eq (text : String) : joinBySlices text = .ok (joinReferences text) := by
  obtain ⟨cs, rfl⟩ : ∃ cs, text = String.ofList cs := ⟨text.toList, String.ofList_toList.symm⟩
  rw [joinReferences, String.toList_ofList]
  induction cs using quoted_induction with
  | plain cs hplain =>
    have hnone : offsetOf? isQuote (String.ofList cs) = none :=
      offsetOf?_eq_none (by rwa [String.toList_ofList])
    rw [joinBySlices]
    split
    · rw [joinPlain, String.toList_ofList, joinReferencesIn_plain hplain]
    · next hsome => simp [hnone] at hsome
  | quoted plain quote rest hplain hquote ih =>
    rw [joinBySlices_quoted String.toList_ofList hplain hquote, ih, joinReferencesIn_quoted hplain hquote,
      String.ofList_append, String.ofList_append]
    rfl

end AccessControl
