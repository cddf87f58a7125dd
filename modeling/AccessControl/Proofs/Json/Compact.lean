import AccessControl.Json.Reader
import AccessControl.Json.Writer
import AccessControl.Proofs.Number.Digits
import AccessControl.Value.Kind
import Mathlib.Data.List.Basic
import Mathlib.Tactic.IntervalCases
/-!
# Compact JSON text tells values apart

Where the text of a value ends is clear from the text: a string ends at its closing quote, a list at its
bracket, and a number before the first character that is no digit.  So two texts that go on in any way are
the same only if they are texts of the same value.  Floats are left out: several of them can have the same
text, among them those that are not numbers.

    readString reads back what stands between quotes                   (`readString_escaped`)
    a.compact ++ x = b.compact ++ y → a = b ∧ x = y                    (`compact_append_inj`)
    no compact text has a NUL character                                (`nul_notMem_compact`)
-/

namespace AccessControl

namespace Json

/-! ## Strings -/

theorem readUnicode_hex4 {n : Nat} (h : n < 32) (rest : List Char) :
    readUnicode (hex4 n ++ rest) = some (Char.ofNat n, rest) := by
  interval_cases n <;> rfl

/-- A character as it stands between quotes is read as itself. -/
theorem readString_escapeChar (fuel : Nat) (acc rest : List Char) (c : Char) :
    readString (fuel + 1) acc (escapeChar c ++ rest) = readString fuel (c :: acc) rest := by
  have hc : ∀ n, c.toNat = n → c = Char.ofNat n := by
    rintro _ rfl
    exact (Char.ofNat_toNat c).symm
  unfold escapeChar
  split
  · next h => rw [h]; rfl
  · next hquote =>
    split
    · next h => rw [h]; rfl
    · next hslash =>
      split
      · next h => rw [h]; rfl
      · split
        · next h => rw [h]; rfl
        · split
          · next h => rw [h]; rfl
          · split
            · next h => rw [hc 8 h]; rfl
            · split
              · next h => rw [hc 12 h]; rfl
              · split
                · next h =>
                  rw [List.cons_append, List.cons_append, readString, readUnicode_hex4 h,
                    Char.ofNat_toNat]
                · rw [List.singleton_append, readString]
                  · exact fun h => hquote h
                  · intro _ _ h _
                    exact hslash h

/-- What stands between quotes is read back up to the closing quote. -/
theorem readString_escaped (cs acc rest : List Char) {fuel : Nat} (h : cs.length < fuel) :
    readString fuel acc (cs.flatMap escapeChar ++ '"' :: rest) =
      some (String.ofList (acc.reverse ++ cs), rest) := by
  induction cs generalizing acc fuel with
  | nil =>
    cases fuel with
    | zero => exact absurd h (Nat.not_lt_zero _)
    | succ fuel => simp [readString]
  | cons c cs ih =>
    cases fuel with
    | zero => exact absurd h (Nat.not_lt_zero _)
    | succ fuel =>
      rw [List.flatMap_cons, List.append_assoc, readString_escapeChar,
        ih _ (Nat.lt_of_succ_lt_succ h)]
      simp

theorem toList_quote (s : String) :
    (quote s).toList = '"' :: (s.toList.flatMap escapeChar ++ ['"']) := by
  simp [quote, String.toList_append]

theorem quote_append_inj {s t : String} {x y : List Char}
    (h : (quote s).toList ++ x = (quote t).toList ++ y) : s = t ∧ x = y := by
  simp only [toList_quote, List.cons_append, List.append_assoc, List.nil_append, List.cons.injEq,
    true_and] at h
  -- both texts are read with fuel for the longer one
  have hread := congrArg (readString (max s.toList.length t.toList.length + 1) []) h
  rw [readString_escaped _ _ _ (by omega), readString_escaped _ _ _ (by omega)] at hread
  simpa using hread

/-! ## Values without floats -/

/-- No float is in a value. -/
inductive FloatFree : Json → Prop
  | null : FloatFree .null
  | bool (b : Bool) : FloatFree (.bool b)
  | int (n : Int) : FloatFree (.int n)
  | str (s : String) : FloatFree (.str s)
  | arr {items : List Json} (h : ∀ j ∈ items, FloatFree j) : FloatFree (.arr items)
  | obj {members : List (String × Json)} (h : ∀ m ∈ members, FloatFree m.2) :
      FloatFree (.obj members)

/-- The characters of a member. -/
def memberChars (m : String × Json) : List Char := (quote m.1).toList ++ ':' :: m.2.compact.toList

/-- Texts between commas. -/
def separated (texts : List (List Char)) : List Char := [','].intercalate texts

theorem separated_cons (text : List Char) (texts : List (List Char)) :
    separated (text :: texts) = text ++ texts.flatMap (',' :: ·) := by
  unfold separated
  induction texts generalizing text with
  | nil => simp
  | cons next rest ih => simp [List.intercalate_cons_cons, ih]

theorem toList_arr (items : List Json) : (compact (.arr items)).toList =
    '[' :: (separated (items.map fun j => j.compact.toList) ++ [']']) := by
  have hitems : (compactItems items).map String.toList = items.map fun j => j.compact.toList := by
    induction items with
    | nil => rfl
    | cons j rest ih => simp [compactItems, ih]
  simp [compact, String.toList_append, String.toList_intercalate, hitems, separated]

theorem toList_obj (members : List (String × Json)) : (compact (.obj members)).toList =
    '\x7b' :: (separated (members.map memberChars) ++ ['\x7d']) := by
  have hmembers : (compactMembers members).map String.toList = members.map memberChars := by
    induction members with
    | nil => rfl
    | cons m rest ih => simp [compactMembers, memberChars, String.toList_append, ih]
  simp [compact, String.toList_append, String.toList_intercalate, hmembers, separated]

/-! ## The first character -/

/-- The kind of a value. -/
def kind? : Json → Option Kind
  | .null => none
  | .bool _ => some .bool
  | .int _ => some .int
  | .float _ => some .float
  | .str _ => some .string
  | .arr _ => some .list
  | .obj _ => some .map

/-- The kind of the value whose text begins with a character. -/
def kindAt (c : Char) : Option Kind :=
  if c = 'n' then none
  else if c = 't' ∨ c = 'f' then some .bool
  else if c = '"' then some .string
  else if c = '[' then some .list
  else if c = '\x7b' then some .map
  else some .int

theorem ne_of_isDigit {c d : Char} (h : c.isDigit = true) (hd : d.isDigit = false) : c ≠ d := by
  rintro rfl
  exact absurd (hd.symm.trans h) (by decide)

/-- The first character of a text tells the kind of its value, and does not close a list. -/
theorem FloatFree.head {j : Json} (h : j.FloatFree) :
    ∃ c rest, j.compact.toList = c :: rest ∧ kindAt c = j.kind? ∧ c ≠ ']' := by
  cases h with
  | null => exact ⟨'n', _, rfl, rfl, by decide⟩
  | bool b => cases b <;> exact ⟨_, _, rfl, rfl, by decide⟩
  | str s => exact ⟨'"', _, toList_quote s, rfl, by decide⟩
  | arr => exact ⟨'[', _, toList_arr _, rfl, by decide⟩
  | obj => exact ⟨'\x7b', _, toList_obj _, rfl, by decide⟩
  | int n =>
    rcases toList_int n with ⟨k, rfl, hk⟩ | ⟨k, rfl, hk⟩
    · obtain ⟨c, rest, hc, hcons⟩ := repr_cons k
      have hkind : kindAt c = some .int := by
        unfold kindAt
        simp [ne_of_isDigit hc]
      exact ⟨c, rest, hk.trans hcons, hkind, ne_of_isDigit hc rfl⟩
    · exact ⟨'-', _, hk, rfl, by decide⟩

/-- Texts that begin alike are of values of one kind. -/
theorem FloatFree.kind?_eq {a b : Json} (ha : a.FloatFree) (hb : b.FloatFree) {x y : List Char}
    (h : a.compact.toList ++ x = b.compact.toList ++ y) : a.kind? = b.kind? := by
  obtain ⟨c, rest, hc, hkind, -⟩ := ha.head
  obtain ⟨d, rest', hd, hkind', -⟩ := hb.head
  rw [hc, hd] at h
  rw [← hkind, ← hkind', (List.cons.inj h).1]

/-! ## Lists -/

section

variable {α : Type} {piece : α → List Char} {close : Char} {x y : List Char}

theorem rest_append_inj (hdigit : close.isDigit = false) (hcomma : close ≠ ',') {as bs : List α}
    (hinj : ∀ a ∈ as, ∀ b ∈ bs, ∀ x y, Stops x → Stops y → piece a ++ x = piece b ++ y →
      a = b ∧ x = y)
    (h : (as.map piece).flatMap (',' :: ·) ++ close :: x =
      (bs.map piece).flatMap (',' :: ·) ++ close :: y) : as = bs ∧ x = y := by
  have hstops : ∀ (cs : List α) (z : List Char),
      Stops ((cs.map piece).flatMap (',' :: ·) ++ close :: z) := by
    intro cs z
    cases cs with
    | nil => exact stops_cons hdigit z
    | cons => exact stops_cons (by decide) _
  induction as generalizing bs with
  | nil =>
    cases bs with
    | nil => exact ⟨rfl, (List.cons.inj h).2⟩
    | cons b bs => exact absurd (List.cons.inj h).1 hcomma
  | cons a as ih =>
    cases bs with
    | nil => exact absurd (List.cons.inj h).1.symm hcomma
    | cons b bs =>
      simp only [List.map_cons, List.flatMap_cons, List.append_assoc, List.cons_append,
        List.cons.injEq, true_and] at h
      obtain ⟨rfl, hrest⟩ := hinj a List.mem_cons_self b List.mem_cons_self _ _ (hstops as x)
        (hstops bs y) h
      obtain ⟨rfl, hxy⟩ := ih (fun a ha b hb =>
        hinj a (List.mem_cons_of_mem _ ha) b (List.mem_cons_of_mem _ hb)) hrest
      exact ⟨rfl, hxy⟩

/-- What stands between commas up to a closing character is told apart when its pieces are. -/
theorem separated_append_inj (hdigit : close.isDigit = false) (hcomma : close ≠ ',')
    {as bs : List α}
    (hinj : ∀ a ∈ as, ∀ b ∈ bs, ∀ x y, Stops x → Stops y → piece a ++ x = piece b ++ y →
      a = b ∧ x = y)
    (hopen : ∀ a, a ∈ as ∨ a ∈ bs → ∃ c rest, piece a = c :: rest ∧ c ≠ close)
    (h : separated (as.map piece) ++ close :: x = separated (bs.map piece) ++ close :: y) :
    as = bs ∧ x = y := by
  match as, bs with
  | [], [] => exact ⟨rfl, (List.cons.inj h).2⟩
  | [], b :: bs =>
    obtain ⟨c, rest, hpiece, hc⟩ := hopen b (Or.inr List.mem_cons_self)
    rw [List.map_cons, separated_cons, hpiece] at h
    exact absurd (List.cons.inj h).1.symm hc
  | a :: as, [] =>
    obtain ⟨c, rest, hpiece, hc⟩ := hopen a (Or.inl List.mem_cons_self)
    rw [List.map_cons, separated_cons, hpiece] at h
    exact absurd (List.cons.inj h).1 hc
  | a :: as, b :: bs =>
    -- a comma in front makes the first piece like the others
    have hrest : ((a :: as).map piece).flatMap (',' :: ·) ++ close :: x =
        ((b :: bs).map piece).flatMap (',' :: ·) ++ close :: y := by
      simpa [separated_cons] using h
    exact rest_append_inj hdigit hcomma hinj hrest

end

/-! ## Texts without NUL -/

theorem nul_notMem_escapeChar (c : Char) : '\x00' ∉ escapeChar c := by
  have hhex : ∀ n < 32, '\x00' ∉ hex4 n := by decide
  unfold escapeChar
  split_ifs with _ _ _ _ _ _ _ hcontrol <;> try decide
  · simp [hhex _ hcontrol]
  · rw [List.mem_singleton]
    rintro rfl
    exact hcontrol (by decide)

theorem nul_notMem_quote (s : String) : '\x00' ∉ (quote s).toList := by
  rw [toList_quote]
  simp [nul_notMem_escapeChar]

theorem nul_notMem_int (n : Int) : '\x00' ∉ (toString n).toList := by
  have hdigits : ∀ k : Nat, '\x00' ∉ (Nat.repr k).toList := fun k hmem =>
    absurd (isDigit_of_mem_repr hmem) (by decide)
  rcases toList_int n with ⟨k, -, hk⟩ | ⟨k, -, hk⟩
  · rw [hk]
    exact hdigits k
  · rw [hk, List.mem_cons, not_or]
    exact ⟨by decide, hdigits (k + 1)⟩

theorem notMem_separated {c : Char} (hc : c ≠ ',') {texts : List (List Char)}
    (h : ∀ text ∈ texts, c ∉ text) : c ∉ separated texts := by
  cases texts with
  | nil => exact List.not_mem_nil
  | cons text rest =>
    rw [List.forall_mem_cons] at h
    rw [separated_cons, List.mem_append, not_or]
    refine ⟨h.1, fun hmem => ?_⟩
    obtain ⟨t, ht, hmem⟩ := List.mem_flatMap.1 hmem
    exact (List.mem_cons.1 hmem).elim hc (h.2 t ht)

/-- Control characters are escaped in strings, and stand nowhere else. -/
theorem nul_notMem_compact {j : Json} (h : j.FloatFree) : '\x00' ∉ j.compact.toList := by
  induction h with
  | null => decide
  | bool b => cases b <;> decide
  | int n => exact nul_notMem_int n
  | str s => exact nul_notMem_quote s
  | arr _ ih =>
    rw [toList_arr]
    have hitems := notMem_separated (by decide : '\x00' ≠ ',') (List.forall_mem_map.2 ih)
    simp [hitems]
  | obj _ ih =>
    rw [toList_obj]
    have hmember : ∀ m ∈ _, '\x00' ∉ memberChars m := fun m hm => by
      unfold memberChars
      rw [List.mem_append, not_or, List.mem_cons, not_or]
      exact ⟨nul_notMem_quote m.1, by decide, ih m hm⟩
    have hmembers := notMem_separated (by decide : '\x00' ≠ ',') (List.forall_mem_map.2 hmember)
    simp [hmembers]

/-! ## Top theorem (proved from the lemmas above) -/

theorem memberChars_append_inj {m n : String × Json}
    (hinj : ∀ x y, Stops x → Stops y → m.2.compact.toList ++ x = n.2.compact.toList ++ y →
      m.2 = n.2 ∧ x = y) {x y : List Char} (hx : Stops x) (hy : Stops y)
    (h : memberChars m ++ x = memberChars n ++ y) : m = n ∧ x = y := by
  unfold memberChars at h
  rw [List.append_assoc, List.append_assoc] at h
  obtain ⟨hname, hrest⟩ := quote_append_inj h
  obtain ⟨hvalue, hxy⟩ := hinj x y hx hy (List.cons.inj hrest).2
  exact ⟨Prod.ext hname hvalue, hxy⟩

/-- **Compact text.**  Texts of values without floats that go on, with something other than a digit, to the
same text are texts of the same value. -/
theorem compact_append_inj {a b : Json} (ha : a.FloatFree) (hb : b.FloatFree) {x y : List Char}
    (hx : Stops x) (hy : Stops y) (h : a.compact.toList ++ x = b.compact.toList ++ y) :
    a = b ∧ x = y := by
  induction ha generalizing b x y with
  | null =>
    have hkind := FloatFree.null.kind?_eq hb h
    cases hb with
    | null => exact ⟨rfl, List.append_cancel_left h⟩
    | _ => simp [kind?] at hkind
  | bool p =>
    have hkind := (FloatFree.bool p).kind?_eq hb h
    cases hb with
    | bool q => cases p <;> cases q <;> simp [compact] at h ⊢ <;> exact h
    | _ => simp [kind?] at hkind
  | int m =>
    have hkind := (FloatFree.int m).kind?_eq hb h
    cases hb with
    | int n =>
      obtain ⟨rfl, hxy⟩ := int_append_inj hx hy h
      exact ⟨rfl, hxy⟩
    | _ => simp [kind?] at hkind
  | str s =>
    have hkind := (FloatFree.str s).kind?_eq hb h
    cases hb with
    | str t =>
      obtain ⟨rfl, hxy⟩ := quote_append_inj h
      exact ⟨rfl, hxy⟩
    | _ => simp [kind?] at hkind
  | @arr items hfree ih =>
    have hkind := (FloatFree.arr hfree).kind?_eq hb h
    cases hb with
    | @arr others hothers =>
      rw [toList_arr, toList_arr] at h
      simp only [List.cons_append, List.append_assoc, List.nil_append, List.cons.injEq,
        true_and] at h
      obtain ⟨rfl, hxy⟩ := separated_append_inj (by decide) (by decide)
        (fun j hj k hk x y hx hy h => ih j hj (hothers k hk) hx hy h)
        (fun j hj => by
          obtain ⟨c, rest, hc, -, hopen⟩ := FloatFree.head (hj.elim (hfree j) (hothers j))
          exact ⟨c, rest, hc, hopen⟩) h
      exact ⟨rfl, hxy⟩
    | _ => simp [kind?] at hkind
  | @obj members hfree ih =>
    have hkind := (FloatFree.obj hfree).kind?_eq hb h
    cases hb with
    | @obj others hothers =>
      rw [toList_obj, toList_obj] at h
      simp only [List.cons_append, List.append_assoc, List.nil_append, List.cons.injEq,
        true_and] at h
      obtain ⟨rfl, hxy⟩ := separated_append_inj (by decide) (by decide)
        (fun m hm n hn x y hx hy h => memberChars_append_inj
          (fun x y hx hy h => ih m hm (hothers n hn) hx hy h) hx hy h)
        (fun m _ => ⟨'"', _, by rw [memberChars, toList_quote, List.cons_append], by decide⟩) h
      exact ⟨rfl, hxy⟩
    | _ => simp [kind?] at hkind

end Json

end AccessControl
