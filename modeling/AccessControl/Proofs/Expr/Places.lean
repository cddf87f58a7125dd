import AccessControl.Matcher.Program
import AccessControl.Proofs.Expr.Cursor
import AccessControl.Proofs.Expr.Scanning
/-!
# Where tokens stand

The characters of a token are a part of the text, from the offset of the token on; such parts follow each other,
and what is before, between and behind them are gaps.  So the offsets of tokens are boundaries of the text,
and so is every offset that a fault is reported at: that of a token, or the end of the text.

    tokens stand apart, in order, with gaps between them                      (`Lexes.layout`)
    faults are reported at boundaries                      (`faultIn_of_tokens`, `faultIn_of_ofTokens`)
-/

namespace AccessControl

open Text

variable {s : String} {offset : Nat} {cs : List Char} {lexemes : List Lexeme}

/-! ## Lexemes in a text -/

/-- Between two offsets of a text are gaps only. -/
def GapsBetween (s : String) (start stop : Nat) : Prop :=
  ∃ gaps, slice s start stop = .ok gaps ∧ ∀ c ∈ gaps.toList, isGap c = true

/-- Lexemes as they stand in a text: each is a part of it, from its offset on; one is behind the other, with gaps
between two of them, before the first and behind the last. -/
structure TokenLayout (s : String) (lexemes : List Lexeme) : Prop where
  parts : ∀ l ∈ lexemes, l.chars ≠ [] ∧ IsBoundary s l.offset ∧
    slice s l.span.1 l.span.2 = .ok (String.ofList l.chars)
  ordered : lexemes.Pairwise fun l next => l.offset < next.offset
  apart : ((0, 0) :: (lexemes.map Lexeme.span ++ [(s.utf8ByteSize, s.utf8ByteSize)])).IsChain
    fun span next => GapsBetween s span.2 next.1

theorem gapsBetween_of_behind {gaps : List Char} (h : Behind s offset (gaps ++ cs))
    (hgaps : ∀ c ∈ gaps, isGap c = true) : GapsBetween s offset (offset + byteLength gaps) :=
  ⟨String.ofList gaps, h.slice_eq, by rwa [String.toList_ofList]⟩

namespace Lexes

/-- A lexeme is a part of the text. -/
theorem behind_of_mem (h : Lexes offset cs lexemes) (hs : Behind s offset cs) {l : Lexeme} (hl : l ∈ lexemes) :
    l.chars ≠ [] ∧ offset ≤ l.offset ∧ ∃ after, Behind s l.offset (l.chars ++ after) := by
  induction h with
  | done => simp at hl
  | gap hgap _ ih =>
    obtain ⟨hne, hle, hpart⟩ := ih (hs.gap hgap) hl
    exact ⟨hne, Nat.le_of_succ_le hle, hpart⟩
  | @token offset c rest chars after t lexemes hgap hread _ ih =>
    obtain ⟨happend, hne⟩ := readToken_append hread
    rcases List.mem_cons.1 hl with rfl | hmore
    · exact ⟨hne, Nat.le_refl _, after, by rwa [happend]⟩
    · obtain ⟨hne', hle, hpart⟩ := ih (hs.token hread) hmore
      exact ⟨hne', Nat.le_trans (Nat.le_add_right _ _) hle, hpart⟩

theorem ordered (h : Lexes offset cs lexemes) (hs : Behind s offset cs) :
    lexemes.Pairwise fun l next => l.offset < next.offset := by
  induction h with
  | done => exact .nil
  | gap hgap _ ih => exact ih (hs.gap hgap)
  | token hgap hread hmore ih =>
    refine .cons (fun next hnext => ?_) (ih (hs.token hread))
    have hle := (hmore.behind_of_mem (hs.token hread) hnext).2.1
    have hpos := byteLength_pos (readToken_append hread).2
    dsimp only
    omega

/-- Lexemes stand apart from the span before them; `gaps` are what has been passed since. -/
theorem apart (h : Lexes offset cs lexemes) {gaps : List Char} {start stop : Nat} (hs : Behind s stop (gaps ++ cs))
    (hgaps : ∀ c ∈ gaps, isGap c = true) (hoffset : stop + byteLength gaps = offset) :
    ((start, stop) :: (lexemes.map Lexeme.span ++ [(s.utf8ByteSize, s.utf8ByteSize)])).IsChain
      fun span next => GapsBetween s span.2 next.1 := by
  induction h generalizing gaps start stop with
  | done offset =>
    have hbetween := gapsBetween_of_behind hs hgaps
    have hend := hs.offset_add
    rw [List.append_nil] at hend
    rw [hend] at hbetween
    exact List.isChain_pair.2 hbetween
  | @gap offset c rest lexemes hgap _ ih =>
    have hlonger : Behind s stop ((gaps ++ [c]) ++ rest) := by rwa [List.append_assoc, List.singleton_append]
    refine ih hlonger (List.forall_mem_append.2 ⟨hgaps, List.forall_mem_singleton.2 hgap⟩) ?_
    rw [byteLength_append, byteLength_gap hgap, byteLength]
    omega
  | @token offset c rest chars after t lexemes hgap hread _ ih =>
    have hbetween := gapsBetween_of_behind hs hgaps
    have hbehind := hs.append
    rw [hoffset] at hbetween hbehind
    have hnone : ∀ d ∈ ([] : List Char), isGap d = true := List.forall_mem_nil _
    exact .cons_cons hbetween (ih (hbehind.token hread) hnone rfl)

/-- The lexemes of a text stand in it. -/
theorem layout (h : Lexes 0 s.toList lexemes) : TokenLayout s lexemes where
  parts l hl := by
    obtain ⟨hne, -, after, hpart⟩ := h.behind_of_mem (behind_zero s) hl
    exact ⟨hne, hpart.isBoundary, hpart.slice_eq⟩
  ordered := h.ordered (behind_zero s)
  apart := h.apart (behind_zero s) (List.forall_mem_nil _) rfl

end Lexes

/-! ## Faults -/

/-- A fault at a boundary of a text. -/
def FaultIn (s : String) (e : MatcherError) : Prop :=
  ∃ offset fault, e = .malformed offset fault ∧ IsBoundary s offset ∧ offset ≤ s.utf8ByteSize

theorem faultIn_of_isBoundary (h : IsBoundary s offset) (fault : SyntaxFault) :
    FaultIn s (.malformed offset fault) := ⟨offset, fault, rfl, h, h.le⟩

/-- A fault of a token is reported where it starts. -/
theorem faultIn_of_tokensFrom {e : MatcherError} (h : tokensFrom offset cs = .error e) (hs : Behind s offset cs) :
    FaultIn s e := by
  fun_induction tokensFrom offset cs with
  | case1 => simp at h
  | case2 offset c rest hgap ih => exact ih h (hs.gap hgap)
  | case3 offset c rest _ fault =>
    rw [← Except.error.inj h]
    exact faultIn_of_isBoundary hs.isBoundary fault
  | case4 offset c rest _ t lexeme behind hread ih =>
    cases hmore : tokensFrom (offset + byteLength lexeme) behind with
    | ok ts => simp [hmore, Except.map] at h
    | error e' =>
      rw [hmore] at h
      obtain rfl : e' = e := Except.error.inj h
      exact ih hmore (hs.token hread)

theorem faultIn_of_tokens {e : MatcherError} (h : tokens s = .error e) : FaultIn s e :=
  faultIn_of_tokensFrom h (behind_zero s)

/-- A fault of the tokens is reported at one of them, or at the end of the text. -/
theorem faultIn_of_ofTokens {ts : List PlacedToken} (hts : tokens s = .ok ts) {e : MatcherError}
    (h : Expr.ofTokens ts s.utf8ByteSize = .error e) : FaultIn s e := by
  obtain ⟨lexemes, hlexes, rfl⟩ := exists_lexes hts
  obtain ⟨place, fault, hplace, rfl⟩ := Cursor.place_of_error h
  refine faultIn_of_isBoundary ?_ fault
  rcases Nat.lt_or_eq_of_le hplace with hlt | rfl
  · have hlt' : place < lexemes.length := by rwa [List.length_map] at hlt
    rw [Cursor.offsetAt, List.getElem?_eq_getElem hlt, Option.map_some, Option.getD_some, List.getElem_map]
    exact (hlexes.layout.parts _ (List.getElem_mem hlt')).2.1
  · rw [Cursor.offsetAt, List.getElem?_eq_none (Nat.le_refl _)]
    exact (behind_end s).isBoundary

theorem faultIn_of_ofText {place : Nat} {fault : SyntaxFault} (h : Expr.ofText s = .error (.malformed place fault)) :
    FaultIn s (.malformed place fault) := by
  unfold Expr.ofText at h
  split at h
  · next e htokens =>
    rw [← Except.error.inj h]
    exact faultIn_of_tokens htokens
  · next ts htokens =>
    split at h
    · next e hblocked =>
      -- a blocked construct is no fault of the text
      unfold checkPortable at hblocked
      split at hblocked <;> simp at hblocked
      simp [← hblocked] at h
    · exact faultIn_of_ofTokens htokens h

/-- A text is compiled after its references are joined, and its faults are those of the joined text. -/
theorem faultIn_of_compile {cache : ProgramCache} {scope : Scope} {text : String} {place : Nat}
    {fault : SyntaxFault} (h : (cache.compile scope text).1 = .error (.malformed place fault)) :
    FaultIn (joinReferences text) (.malformed place fault) := by
  refine faultIn_of_ofText ?_
  unfold ProgramCache.compile at h
  dsimp only at h
  split at h
  · simp at h
  · split at h
    · simp at h
    · next e hsource =>
      obtain rfl := Except.error.inj h
      unfold Program.ofSource at hsource
      split at hsource
      · next e' hparse => rw [hparse, Except.error.inj hsource]
      · split at hsource <;> simp at hsource

/-! ## Top theorem -/

/-- **No text is cut inside a character.**  A text can be cut at its boundaries and nowhere else, and joining its
references, reading its tokens and parsing them have answers, so they cut it at boundaries.  Tokens stand in
order, with gaps between them.  A fault is reported at a boundary of the text that was read: of tokens and of an
expression in the text itself, of a program in the joined text. -/
theorem reads_at_boundaries (text : String) :
    (∀ s offset, (∃ parts, cut s offset = .ok parts) ↔ IsBoundary s offset) ∧
    joinBySlices text = .ok (joinReferences text) ∧
    scan text = (tokens text).mapError Halt.fault ∧
    (∀ e, tokens text = .error e → FaultIn text e) ∧
    (∀ ts, tokens text = .ok ts →
      (∃ lexemes, Lexes 0 text.toList lexemes ∧ lexemes.map Lexeme.placed = ts ∧ TokenLayout text lexemes) ∧
      (ts.Pairwise fun t next => t.offset < next.offset) ∧
      Cursor.ofTokens ts text.utf8ByteSize = some (Expr.ofTokens ts text.utf8ByteSize) ∧
      ∀ e, Expr.ofTokens ts text.utf8ByteSize = .error e → FaultIn text e) ∧
    (∀ (cache : ProgramCache) (scope : Scope) (offset : Nat) (fault : SyntaxFault),
      (cache.compile scope text).1 = .error (.malformed offset fault) →
        FaultIn (joinReferences text) (.malformed offset fault)) := by
  refine ⟨fun s offset => isBoundary_iff_cut.symm, joinBySlices_eq text, scan_eq text,
    fun e he => faultIn_of_tokens he, fun ts hts => ⟨?_, ?_, Cursor.ofTokens_eq ts _, fun e he =>
      faultIn_of_ofTokens hts he⟩, fun cache scope offset fault h => faultIn_of_compile h⟩
  · obtain ⟨lexemes, hlexes, hplaced⟩ := exists_lexes hts
    exact ⟨lexemes, hlexes, hplaced, hlexes.layout⟩
  · obtain ⟨lexemes, hlexes, rfl⟩ := exists_lexes hts
    exact List.pairwise_map.2 hlexes.layout.ordered

/-- A parenthesis behind a literal with an accented letter is reported at its offset, which is counted in bytes. -/
theorem reads_at_boundaries_accent :
    ∃ ts, tokens "'é' )" = .ok ts ∧ scan "'é' )" = .ok ts ∧
      Cursor.ofTokens ts 6 = some (.error (.malformed 5 (.unexpectedToken ")"))) ∧
      IsBoundary "'é' )" 5 ∧ ¬ IsBoundary "'é' )" 2 := by
  have htokens : tokens "'é' )" = .ok [⟨.str "é", 0⟩, ⟨.symbol .rightParen, 5⟩] := by cbv
  have hparse : Expr.ofTokens [⟨.str "é", 0⟩, ⟨.symbol .rightParen, 5⟩] 6 =
      .error (.malformed 5 (.unexpectedToken ")")) := by rfl
  obtain ⟨-, -, hscan, -, hread, -⟩ := reads_at_boundaries "'é' )"
  obtain ⟨-, -, hcursor, hfault⟩ := hread _ htokens
  have hsize : "'é' )".utf8ByteSize = 6 := by decide
  rw [hsize] at hcursor hfault
  obtain ⟨offset, fault, heq, hboundary, -⟩ := hfault _ hparse
  obtain ⟨rfl, -⟩ := MatcherError.malformed.inj heq
  refine ⟨_, htokens, ?_, by rw [hcursor, hparse], hboundary, ?_⟩
  · rw [hscan, htokens]
    rfl
  · rw [IsBoundary]
    decide

end AccessControl
