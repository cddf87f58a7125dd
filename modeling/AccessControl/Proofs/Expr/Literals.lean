import AccessControl.Proofs.Expr.Lexing
import AccessControl.Proofs.Text.Boundaries
/-!
# Where literals stand

References are joined between the literals of a text, which are cut out at its quotes before any token is
read; in the tokens a literal is a string.  Both readings find the same literals: in a text that has tokens,
what is cut out stands where the string tokens do.  A byte that joining changes is a dot outside of them, so
all offsets mean the same places before and after.

    joinReferencesIn cs = the segments of cs, joined one by one         (`joinReferencesIn_eq`)
    string tokens stand where the literals stand                        (`Lexes.strings_eq`)
    joining the segments changes dots between literals only             (`changesDots_segments`)
-/

namespace AccessControl

open Text

/-! ## Segments -/

/-- A part of a text: what stands between two literals, or a literal with its quotes. -/
inductive Segment where
  | plain (cs : List Char)
  | literal (cs : List Char)

namespace Segment

def chars : Segment → List Char
  | .plain cs => cs
  | .literal cs => cs

/-- A literal stays as it is. -/
def joined : Segment → List Char
  | .plain cs => joinUnquoted true cs
  | .literal cs => cs

/-- The segments of a text.  A literal without a closing quote goes on to its end. -/
def ofChars (cs : List Char) : List Segment :=
  let between := cs.takeWhile fun c => !isQuote c
  match _rest : cs.dropWhile fun c => !isQuote c with
  | [] => [.plain between]
  | quote :: rest =>
    .plain between :: .literal (quote :: (splitQuoted quote rest).1) ::
      ofChars (splitQuoted quote rest).2
  termination_by cs.length
  decreasing_by
    have key := congrArg List.length (splitQuoted_append quote rest)
    have all := congrArg List.length
      (List.takeWhile_append_dropWhile (p := fun c => !isQuote c) (l := cs))
    rw [_rest] at all
    simp only [List.length_append, List.length_cons] at key all
    omega

/-- Where the literals among segments stand: the offset of each, and that of the text behind it. -/
def spans (offset : Nat) : List Segment → List (Nat × Nat)
  | [] => []
  | .plain cs :: rest => spans (offset + byteLength cs) rest
  | .literal cs :: rest =>
    (offset, offset + byteLength cs) :: spans (offset + byteLength cs) rest

end Segment

/-- Where the literals of a text stand. -/
def literalSpans (text : String) : List (Nat × Nat) := Segment.spans 0 (Segment.ofChars text.toList)

namespace Segment

theorem ofChars_plain {plain : List Char} (h : ∀ c ∈ plain, isQuote c = false) :
    ofChars plain = [.plain plain] := by
  have htake : plain.takeWhile (fun c => !isQuote c) = plain :=
    List.takeWhile_eq_self_iff.2 (by simpa using h)
  have hdrop : plain.dropWhile (fun c => !isQuote c) = [] :=
    List.dropWhile_eq_nil_iff.2 (by simpa using h)
  rw [ofChars]
  split
  · rw [htake]
  · next hquote => simp [hdrop] at hquote

theorem ofChars_quoted {plain rest : List Char} {quote : Char} (h : ∀ c ∈ plain, isQuote c = false)
    (hquote : isQuote quote = true) :
    ofChars (plain ++ quote :: rest) = .plain plain :: .literal (quote :: (splitQuoted quote rest).1) ::
      ofChars (splitQuoted quote rest).2 := by
  have hall : ∀ c ∈ plain, (!isQuote c) = true := fun c hc => by rw [h c hc]; rfl
  have htake : (plain ++ quote :: rest).takeWhile (fun c => !isQuote c) = plain := by
    rw [List.takeWhile_append_of_pos hall, List.takeWhile_cons_of_neg (by simp [hquote]), List.append_nil]
  have hdrop : (plain ++ quote :: rest).dropWhile (fun c => !isQuote c) = quote :: rest := by
    rw [List.dropWhile_append_of_pos hall, List.dropWhile_cons_of_neg (by simp [hquote])]
  rw [ofChars]
  split
  · next hnil => simp [hdrop] at hnil
  · next q more hq =>
    obtain ⟨rfl, rfl⟩ := List.cons.inj (hdrop.symm.trans hq)
    rw [htake]

end Segment

/-- What holds of texts without quotes, and of a text when it holds of what is behind its first literal,
holds of every text. -/
theorem quoted_induction {P : List Char → Prop} (plain : ∀ cs, (∀ c ∈ cs, isQuote c = false) → P cs)
    (quoted : ∀ plain quote rest, (∀ c ∈ plain, isQuote c = false) → isQuote quote = true →
      P (splitQuoted quote rest).2 → P (plain ++ quote :: rest)) (cs : List Char) : P cs := by
  rcases plain_or_quoted cs with hplain | ⟨before, quote, rest, rfl, hbefore, hquote⟩
  · exact plain cs hplain
  · exact quoted before quote rest hbefore hquote (quoted_induction plain quoted _)
  termination_by cs.length
  decreasing_by
    have key := congrArg List.length (splitQuoted_append quote rest)
    simp_all only [List.length_append, List.length_cons]
    omega

namespace Segment

/-- The segments make up the text. -/
theorem chars_ofChars (cs : List Char) : (ofChars cs).flatMap chars = cs := by
  induction cs using quoted_induction with
  | plain cs h => rw [ofChars_plain h, List.flatMap_singleton, chars]
  | quoted plain quote rest h hquote ih =>
    rw [ofChars_quoted h hquote, List.flatMap_cons, List.flatMap_cons, ih, chars, chars, List.cons_append,
      splitQuoted_append]

end Segment

/-- Joining joins segment by segment, and copies the literals. -/
theorem joinReferencesIn_eq (cs : List Char) :
    joinReferencesIn cs = (Segment.ofChars cs).flatMap Segment.joined := by
  induction cs using quoted_induction with
  | plain cs h => rw [joinReferencesIn_plain h, Segment.ofChars_plain h, List.flatMap_singleton, Segment.joined]
  | quoted plain quote rest h hquote ih =>
    rw [joinReferencesIn_quoted h hquote, Segment.ofChars_quoted h hquote, List.flatMap_cons,
      List.flatMap_cons, ih, Segment.joined, Segment.joined, List.append_assoc]

/-! ## Changed characters -/

/-- What becomes of a character: a dot may become an underscore. -/
def BecomesScore (x y : Char) : Prop := y = x ∨ (x = '.' ∧ y = '_')

theorem becomesScore_refl (cs : List Char) : List.Forall₂ BecomesScore cs cs :=
  List.forall₂_same.2 fun _ _ => Or.inl rfl

/-- Of a text without literals only dots change. -/
theorem joinUnquoted_dots (b : Bool) (cs : List Char) :
    List.Forall₂ BecomesScore cs (joinUnquoted b cs) := by
  fun_induction joinUnquoted b cs with
  | case1 => exact .nil
  | case2 b c rest name after hfound ih =>
    have hreference : referenceAt? (c :: rest) = some (name, after) := by
      split at hfound
      · exact hfound
      · simp at hfound
    obtain ⟨d, digits, -, -, rfl, hcs⟩ := referenceAt?_eq_some_iff.1 hreference
    rw [hcs]
    exact List.rel_append (becomesScore_refl _) (.cons (Or.inr ⟨rfl, rfl⟩) ih)
  | case3 b c rest _ ih => exact .cons (Or.inl rfl) ih

/-- A dot and an underscore are one byte each. -/
theorem bytes_dots {cs ds : List Char} (h : List.Forall₂ BecomesScore cs ds) :
    List.Forall₂ (fun x y => y = x ∨ (x = '.'.toUInt8 ∧ y = '_'.toUInt8)) (bytes cs) (bytes ds) := by
  induction h with
  | nil => exact .nil
  | @cons c d cs ds hcd _ ih =>
    refine List.rel_append ?_ ih
    rcases hcd with rfl | ⟨rfl, rfl⟩
    · exact List.forall₂_same.2 fun _ _ => Or.inl rfl
    · exact .cons (Or.inr ⟨rfl, rfl⟩) .nil

theorem byteLength_dots {cs ds : List Char} (h : List.Forall₂ BecomesScore cs ds) :
    byteLength ds = byteLength cs := by
  rw [← length_bytes, ← length_bytes, (bytes_dots h).length_eq]

namespace Segment

theorem joined_dots (p : Segment) : List.Forall₂ BecomesScore p.chars p.joined := by
  cases p with
  | plain cs => exact joinUnquoted_dots true cs
  | literal cs => exact becomesScore_refl cs

end Segment

theorem joinReferencesIn_dots (cs : List Char) : List.Forall₂ BecomesScore cs (joinReferencesIn cs) := by
  have hsegments : ∀ segments : List Segment,
      List.Forall₂ BecomesScore (segments.flatMap Segment.chars) (segments.flatMap Segment.joined) := by
    intro segments
    induction segments with
    | nil => exact .nil
    | cons p rest ih => exact List.rel_append p.joined_dots ih
  have hjoined := hsegments (Segment.ofChars cs)
  rwa [Segment.chars_ofChars, ← joinReferencesIn_eq] at hjoined

/-! ## Changed bytes -/

/-- Bytes that start at an offset, and what becomes of them: what changes is a dot outside of all spans, which
becomes an underscore. -/
def ChangesDots (spans : List (Nat × Nat)) (offset : Nat) (before after : List UInt8) : Prop :=
  ∀ i : Nat, after[i]? = before[i]? ∨
    (before[i]? = some '.'.toUInt8 ∧ after[i]? = some '_'.toUInt8 ∧
      ∀ span ∈ spans, ¬ (span.1 ≤ offset + i ∧ offset + i < span.2))

namespace Segment

/-- No literal stands before the offset from which literals are counted. -/
theorem le_of_mem_spans {offset : Nat} {segments : List Segment} {span : Nat × Nat}
    (h : span ∈ spans offset segments) : offset ≤ span.1 := by
  induction segments generalizing offset with
  | nil => simp [spans] at h
  | cons p rest ih =>
    cases p with
    | plain cs =>
      have hle := ih h
      omega
    | literal cs =>
      rcases List.mem_cons.1 h with rfl | hmem
      · exact Nat.le_refl _
      · have hle := ih hmem
        omega

end Segment

/-- **Joining the segments of a text changes dots between its literals only.** -/
theorem changesDots_segments (offset : Nat) (segments : List Segment) :
    ChangesDots (Segment.spans offset segments) offset (bytes (segments.flatMap Segment.chars))
      (bytes (segments.flatMap Segment.joined)) := by
  induction segments generalizing offset with
  | nil => exact fun _ => Or.inl rfl
  | cons p rest ih =>
    intro i
    have hlen : (bytes p.joined).length = (bytes p.chars).length := (bytes_dots p.joined_dots).length_eq.symm
    rw [List.flatMap_cons, List.flatMap_cons, bytes_append, bytes_append]
    by_cases hi : i < (bytes p.chars).length
    · -- a byte of this segment
      have hi' : i < (bytes p.joined).length := by rwa [hlen]
      rw [List.getElem?_append_left hi, List.getElem?_append_left hi']
      cases p with
      | literal cs => exact Or.inl rfl
      | plain cs =>
        have hdots := bytes_dots (joinUnquoted_dots true cs)
        rw [List.getElem?_eq_getElem hi, List.getElem?_eq_getElem hi']
        rcases hdots.get hi hi' with hsame | ⟨hdot, hscore⟩
        · exact Or.inl (congrArg some hsame)
        · refine Or.inr ⟨congrArg some hdot, congrArg some hscore, fun span hspan hin => ?_⟩
          have hle : offset + byteLength cs ≤ span.1 := Segment.le_of_mem_spans hspan
          have hlt : i < byteLength cs := by rwa [length_bytes] at hi
          omega
    · -- a byte behind it, and so no byte of a literal that it may be
      rw [List.getElem?_append_right (by omega), List.getElem?_append_right (by omega), hlen]
      rcases ih (offset + byteLength p.chars) (i - (bytes p.chars).length) with hsame | ⟨hdot, hscore, hout⟩
      · exact Or.inl hsame
      · have hplace : offset + byteLength p.chars + (i - (bytes p.chars).length) = offset + i := by
          rw [length_bytes] at hi ⊢
          omega
        rw [hplace] at hout
        refine Or.inr ⟨hdot, hscore, fun span hspan hin => ?_⟩
        cases p with
        | plain cs => exact hout span hspan hin
        | literal cs =>
          rcases List.mem_cons.1 hspan with rfl | hmem
          · rw [Segment.chars, length_bytes] at hi
            dsimp only at hin
            omega
          · exact hout span hmem hin

theorem changesDots_joinReferences (text : String) :
    ChangesDots (literalSpans text) 0 (bytes text.toList) (bytes (joinReferences text).toList) := by
  have hsegments := changesDots_segments 0 (Segment.ofChars text.toList)
  rwa [Segment.chars_ofChars, ← joinReferencesIn_eq, ← String.toList_ofList (l := joinReferencesIn _)]
    at hsegments

/-! ## Tokens with their characters -/

/-- A token, the byte offset at which it starts, and the characters it is read from. -/
structure Lexeme where
  token : Token
  offset : Nat
  chars : List Char

namespace Lexeme

def placed (l : Lexeme) : PlacedToken := ⟨l.token, l.offset⟩

/-- Where a token stands: its offset, and that of the text behind it. -/
def span (l : Lexeme) : Nat × Nat := (l.offset, l.offset + byteLength l.chars)

def isString (l : Lexeme) : Bool :=
  match l.token with
  | .str _ => true
  | _ => false

end Lexeme

/-- The lexemes of a text that starts at an offset: one after the other, with gaps between them. -/
inductive Lexes : Nat → List Char → List Lexeme → Prop where
  | done (offset : Nat) : Lexes offset [] []
  | gap {offset : Nat} {c : Char} {rest : List Char} {lexemes : List Lexeme} (hgap : isGap c = true)
    (h : Lexes (offset + 1) rest lexemes) : Lexes offset (c :: rest) lexemes
  | token {offset : Nat} {c : Char} {rest chars after : List Char} {t : Token} {lexemes : List Lexeme}
    (hgap : isGap c = false) (hread : readToken c rest = .ok (t, chars, after))
    (h : Lexes (offset + byteLength chars) after lexemes) :
    Lexes offset (c :: rest) (⟨t, offset, chars⟩ :: lexemes)

/-- The tokens of a text are those of its lexemes. -/
theorem exists_lexes {offset : Nat} {cs : List Char} {ts : List PlacedToken}
    (h : tokensFrom offset cs = .ok ts) :
    ∃ lexemes, Lexes offset cs lexemes ∧ lexemes.map Lexeme.placed = ts := by
  fun_induction tokensFrom offset cs generalizing ts with
  | case1 offset => exact ⟨[], .done offset, by simpa using h⟩
  | case2 offset c rest hgap ih =>
    obtain ⟨lexemes, hlexes, hplaced⟩ := ih h
    exact ⟨lexemes, .gap hgap hlexes, hplaced⟩
  | case3 => simp at h
  | case4 offset c rest hgap t chars after hread ih =>
    cases hmore : tokensFrom (offset + byteLength chars) after with
    | error e => simp [hmore, Except.map] at h
    | ok more =>
      obtain ⟨lexemes, hlexes, hplaced⟩ := ih hmore
      rw [hmore] at h
      obtain rfl := Except.ok.inj h
      exact ⟨_, .token (by simpa using hgap) hread hlexes, by rw [List.map_cons, hplaced]; rfl⟩

/-! ## Strings are literals -/

/-- A quote that is closed is closed where the literal ends. -/
theorem splitQuoted_of_readQuoted {quote : Char} (hquote : quote ≠ '\\')
    {cs text lexeme rest : List Char} (h : readQuoted quote cs = some (text, lexeme, rest)) :
    splitQuoted quote cs = (lexeme, rest) := by
  fun_induction readQuoted quote cs generalizing text lexeme with
  | case1 => simp at h
  | case2 c more ih =>
    obtain ⟨⟨t, l, r⟩, hr, heq⟩ := Option.map_eq_some_iff.1 h
    simp only [Prod.mk.injEq] at heq
    obtain ⟨-, rfl, rfl⟩ := heq
    rw [splitQuoted_escape, ih hr]
  | case3 => simp at h
  | case4 more _ _ =>
    simp only [Option.some.injEq, Prod.mk.injEq] at h
    obtain ⟨-, rfl, rfl⟩ := h
    exact splitQuoted_quote hquote more
  | case5 c more _ hslash hne ih =>
    obtain ⟨⟨t, l, r⟩, hr, heq⟩ := Option.map_eq_some_iff.1 h
    simp only [Prod.mk.injEq] at heq
    obtain ⟨-, rfl, rfl⟩ := heq
    rw [splitQuoted_char hslash hne, ih hr]

theorem not_quote_of_isGap {c : Char} (h : isGap c = true) : isQuote c = false := by
  rw [Bool.eq_false_iff]
  intro hquote
  rw [not_gap_of_isQuote hquote] at h
  exact Bool.false_ne_true h

/-- A gap is one byte. -/
theorem byteLength_gap {c : Char} (h : isGap c = true) (rest : List Char) :
    byteLength (c :: rest) = 1 + byteLength rest := by
  simp only [isGap, Bool.or_eq_true, beq_iff_eq] at h
  rcases h with ((rfl | rfl) | rfl) | rfl <;> rfl

theorem not_isQuote_of_continuesName {c : Char} (h : continuesName c = true) : isQuote c = false := by
  simpa [isQuote] using not_quote_of_continuesName h

theorem plain_of_longSymbol {c d : Char} {s : Symbol} (h : longSymbol? c d = some s) :
    isQuote c = false ∧ isQuote d = false := by
  unfold longSymbol? at h
  split at h <;> first | exact ⟨rfl, rfl⟩ | simp at h

theorem plain_of_readNumber {cs lexeme rest : List Char} {t : Token}
    (h : readNumber cs = .ok (t, lexeme, rest)) :
    (∀ s, t ≠ .str s) ∧ ∀ d ∈ lexeme, isQuote d = false := by
  have hdigits : ∀ ds : List Char, ∀ d ∈ ds.takeWhile Char.isDigit, isQuote d = false :=
    fun ds d hd => not_isQuote_of_continuesName
      (continuesName_of_isDigit (List.mem_takeWhile_imp hd))
  have hfraction : ∀ ds : List Char, ∀ d ∈ fractionLexeme (splitFraction ds).1, isQuote d = false := by
    intro ds d hd
    unfold splitFraction at hd
    split at hd
    · split at hd
      · rcases List.mem_cons.1 hd with rfl | hmem
        · rfl
        · exact hdigits _ d hmem
      · simp [fractionLexeme] at hd
    · simp [fractionLexeme] at hd
  unfold readNumber at h
  dsimp only at h
  cases hn : numberToken (cs.takeWhile Char.isDigit)
      (splitFraction (cs.dropWhile Char.isDigit)).1 with
  | error e => simp [hn, Except.map] at h
  | ok n =>
    simp only [hn, Except.map, Except.ok.injEq, Prod.mk.injEq] at h
    obtain ⟨rfl, rfl, -⟩ := h
    refine ⟨fun s heq => ?_, fun d hd => ?_⟩
    · subst heq
      unfold numberToken at hn
      split at hn
      · simp at hn
      · split at hn <;> simp at hn
    · rcases List.mem_append.1 hd with hmem | hmem
      · exact hdigits cs d hmem
      · exact hfraction _ d hmem

theorem word_ne_str (s text : String) : word s ≠ .str text := by
  unfold word
  split
  · simp
  · split
    · simp
    · split <;> simp

/-- A token that starts with no quote is no string and has no quote in it. -/
theorem plain_of_readToken {c : Char} (hc : isQuote c = false) {rest lexeme after : List Char} {t : Token}
    (h : readToken c rest = .ok (t, lexeme, after)) :
    (∀ s, t ≠ .str s) ∧ ∀ d ∈ lexeme, isQuote d = false := by
  cases reads_of_readToken h with
  | long hsymbol => exact ⟨by simp, by simp [plain_of_longSymbol hsymbol]⟩
  | short => exact ⟨by simp, by simpa using hc⟩
  | quoted hquote =>
    rw [hc] at hquote
    exact absurd hquote Bool.false_ne_true
  | number _ hread => exact plain_of_readNumber hread
  | spelled =>
    refine ⟨word_ne_str _, List.forall_mem_cons.2 ⟨hc, fun d hd => ?_⟩⟩
    exact not_isQuote_of_continuesName (List.mem_takeWhile_imp hd)

/-- Characters in front of a text move its literals. -/
theorem Segment.spans_append (offset : Nat) {plain : List Char} (h : ∀ c ∈ plain, isQuote c = false)
    (cs : List Char) :
    spans offset (ofChars (plain ++ cs)) = spans (offset + byteLength plain) (ofChars cs) := by
  rcases plain_or_quoted cs with hcs | ⟨before, quote, rest, rfl, hbefore, hquote⟩
  · rw [ofChars_plain hcs, ofChars_plain (List.forall_mem_append.2 ⟨h, hcs⟩)]
    rfl
  · rw [← List.append_assoc, ofChars_quoted (List.forall_mem_append.2 ⟨h, hbefore⟩) hquote,
      ofChars_quoted hbefore hquote]
    simp only [spans, byteLength_append, Nat.add_assoc]

/-- **String tokens stand where the literals stand.** -/
theorem Lexes.strings_eq {offset : Nat} {cs : List Char} {lexemes : List Lexeme}
    (h : Lexes offset cs lexemes) :
    (lexemes.filter Lexeme.isString).map Lexeme.span = Segment.spans offset (Segment.ofChars cs) := by
  induction h with
  | done offset => rw [Segment.ofChars_plain (by simp)]; rfl
  | @gap offset c rest lexemes hgap _ ih =>
    have hc : ∀ d ∈ [c], isQuote d = false := by simpa using not_quote_of_isGap hgap
    have hsize : byteLength [c] = 1 := byteLength_gap hgap []
    rw [ih, ← List.singleton_append, Segment.spans_append offset hc, hsize]
  | @token offset c rest chars after t lexemes hgap hread _ ih =>
    obtain ⟨happend, -⟩ := readToken_append hread
    cases hc : isQuote c with
    | true =>
      rw [readToken_quote hc] at hread
      split at hread
      · next text lexeme behind hquoted =>
        simp only [Except.ok.injEq, Prod.mk.injEq] at hread
        obtain ⟨rfl, rfl, rfl⟩ := hread
        have hsplit := splitQuoted_of_readQuoted (ne_slash_of_isQuote hc) hquoted
        have hsegments : Segment.ofChars (c :: rest) =
            .plain [] :: .literal (c :: lexeme) :: Segment.ofChars behind := by
          have hcut : Segment.ofChars ([] ++ c :: rest) = _ := Segment.ofChars_quoted (by simp) hc
          rwa [hsplit] at hcut
        rw [hsegments]
        exact congrArg ((offset, offset + byteLength (c :: lexeme)) :: ·) ih
      · simp at hread
    | false =>
      obtain ⟨hstring, hplain⟩ := plain_of_readToken hc hread
      have hnot : Lexeme.isString ⟨t, offset, chars⟩ = false := by
        unfold Lexeme.isString
        dsimp only
        split
        · next s => exact absurd rfl (hstring s)
        · rfl
      rw [List.filter_cons_of_neg (by rw [hnot]; exact Bool.false_ne_true), ih, ← happend,
        Segment.spans_append offset hplain]

/-! ## Literals of a joined text -/

/-- Joining leaves literals where they are. -/
theorem spans_joinReferencesIn (offset : Nat) (cs : List Char) :
    Segment.spans offset (Segment.ofChars (joinReferencesIn cs)) = Segment.spans offset (Segment.ofChars cs) := by
  have hjoined : ∀ plain : List Char, (∀ c ∈ plain, isQuote c = false) →
      ∀ c ∈ joinUnquoted true plain, isQuote c = false := by
    intro plain h c hc
    rcases mem_joinUnquoted hc with hmem | rfl
    · exact h c hmem
    · rfl
  induction cs using quoted_induction generalizing offset with
  | plain cs h =>
    rw [joinReferencesIn_plain h, Segment.ofChars_plain h, Segment.ofChars_plain (hjoined cs h)]
    rfl
  | quoted plain quote rest h hquote ih =>
    have hlast : (splitQuoted quote rest).2 = [] → joinReferencesIn (splitQuoted quote rest).2 = [] := by
      intro hnil
      rw [hnil, joinReferencesIn_nil]
    have hcut := splitQuoted_append_right (ne_slash_of_isQuote hquote) rest hlast
    rw [joinReferencesIn_quoted h hquote, List.append_assoc, List.cons_append,
      Segment.ofChars_quoted (hjoined plain h) hquote, hcut, Segment.ofChars_quoted h hquote]
    simp only [Segment.spans, ih, byteLength_dots (joinUnquoted_dots true plain)]

theorem literalSpans_joinReferences (text : String) :
    literalSpans (joinReferences text) = literalSpans text := by
  rw [literalSpans, joinReferences, String.toList_ofList, spans_joinReferencesIn, literalSpans]

/-! ## Top theorem -/

/-- **Joining leaves literals alone.**  The segments of a text make it up, and joining copies those that are
literals.  No byte is lost or added, and one that changes is a dot between literals, which becomes an
underscore; joining once is enough.  In a text that has tokens the string tokens stand where the literals do,
so none of their bytes changes; and they stand there in the tokens of the joined text as well. -/
theorem joinReferences_literals (text : String) :
    (Segment.ofChars text.toList).flatMap Segment.chars = text.toList ∧
    (joinReferences text).toList = (Segment.ofChars text.toList).flatMap Segment.joined ∧
    (joinReferences text).utf8ByteSize = text.utf8ByteSize ∧
    (∀ i : Nat, (joinReferences text).toByteArray[i]? = text.toByteArray[i]? ∨
      (text.toByteArray[i]? = some '.'.toUInt8 ∧ (joinReferences text).toByteArray[i]? = some '_'.toUInt8 ∧
        ∀ span ∈ literalSpans text, ¬ (span.1 ≤ i ∧ i < span.2))) ∧
    joinReferences (joinReferences text) = joinReferences text ∧
    (∀ ts, tokens text = .ok ts → ∃ lexemes, Lexes 0 text.toList lexemes ∧
      lexemes.map Lexeme.placed = ts ∧
      (lexemes.filter Lexeme.isString).map Lexeme.span = literalSpans text ∧
      ∀ l ∈ lexemes, l.isString = true → ∀ i, l.span.1 ≤ i → i < l.span.2 →
        (joinReferences text).toByteArray[i]? = text.toByteArray[i]?) ∧
    (∀ ts, tokens (joinReferences text) = .ok ts → ∃ lexemes, Lexes 0 (joinReferences text).toList lexemes ∧
      lexemes.map Lexeme.placed = ts ∧
      (lexemes.filter Lexeme.isString).map Lexeme.span = literalSpans text) := by
  have hbytes : ∀ i : Nat, (joinReferences text).toByteArray[i]? = text.toByteArray[i]? ∨
      (text.toByteArray[i]? = some '.'.toUInt8 ∧ (joinReferences text).toByteArray[i]? = some '_'.toUInt8 ∧
        ∀ span ∈ literalSpans text, ¬ (span.1 ≤ i ∧ i < span.2)) := by
    intro i
    have hi := changesDots_joinReferences text i
    rwa [← getElem?_toByteArray, ← getElem?_toByteArray, Nat.zero_add] at hi
  refine ⟨Segment.chars_ofChars _, ?_, ?_, hbytes, joinReferences_idem text, fun ts hts => ?_,
    fun ts hts => ?_⟩
  · rw [joinReferences, String.toList_ofList, joinReferencesIn_eq]
  · rw [utf8ByteSize_eq, utf8ByteSize_eq, joinReferences, String.toList_ofList,
      byteLength_dots (joinReferencesIn_dots _)]
  · obtain ⟨lexemes, hlexes, hplaced⟩ := exists_lexes hts
    refine ⟨lexemes, hlexes, hplaced, hlexes.strings_eq, fun l hl hstring i hfirst hlast => ?_⟩
    rcases hbytes i with hsame | ⟨-, -, hout⟩
    · exact hsame
    · -- the string is a literal, and what changes is in none
      have hspan : l.span ∈ literalSpans text := by
        rw [literalSpans, ← hlexes.strings_eq]
        exact List.mem_map_of_mem (List.mem_filter.2 ⟨hl, hstring⟩)
      exact absurd ⟨hfirst, hlast⟩ (hout l.span hspan)
  · obtain ⟨lexemes, hlexes, hplaced⟩ := exists_lexes hts
    refine ⟨lexemes, hlexes, hplaced, ?_⟩
    rw [← literalSpans_joinReferences]
    exact hlexes.strings_eq

/-- Quotes of the other kind, an escaped quote, an escaped backslash, and a letter of two bytes. -/
theorem joinReferences_literals_escaped :
    let text := "r.act in (\"r.a\", 'it\\'s p.x\\\\', '\u00f6.r.b') && p.eft == \"p.a'b\""
    joinReferences text = "r_act in (\"r.a\", 'it\\'s p.x\\\\', '\u00f6.r.b') && p_eft == \"p.a'b\"" ∧
    ∃ ts lexemes, tokens text = .ok ts ∧ Lexes 0 text.toList lexemes ∧ lexemes.map Lexeme.placed = ts ∧
      (lexemes.filter Lexeme.isString).map Lexeme.span = [(10, 15), (17, 30), (32, 40), (54, 61)] := by
  intro text
  have htokens : ∃ ts, tokens text = .ok ts := by
    have hok : (tokens text).toBool = true := by cbv
    cases hts : tokens text with
    | ok ts => exact ⟨ts, rfl⟩
    | error e =>
      rw [hts] at hok
      exact absurd hok Bool.false_ne_true
  have hjoined : joinReferences text =
      "r_act in (\"r.a\", 'it\\'s p.x\\\\', '\u00f6.r.b') && p_eft == \"p.a'b\"" := by cbv
  have hspans : literalSpans text = [(10, 15), (17, 30), (32, 40), (54, 61)] := by cbv
  obtain ⟨ts, hts⟩ := htokens
  obtain ⟨-, -, -, -, -, hread, -⟩ := joinReferences_literals text
  obtain ⟨lexemes, hlexes, hplaced, hstrings, -⟩ := hread ts hts
  exact ⟨hjoined, ts, lexemes, hts, hlexes, hplaced, hstrings.trans hspans⟩

end AccessControl
