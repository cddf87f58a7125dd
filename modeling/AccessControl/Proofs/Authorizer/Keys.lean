import AccessControl.Authorizer.Cache
import AccessControl.Proofs.Json.Compact
import Mathlib.Data.List.Basic
/-!
# Keys of decisions

A decision is remembered under the text of what was asked: names and values, each with a NUL character
behind it, and values with their kind in front.  The kinds differ in their first character and compact text
tells values apart, so the parts of a key tell what they stand for.  Where the parts end is told by the NUL
characters, which works as long as there is none inside a part.  A string that is a value by itself is
written as it is, and one with a NUL character and the name of a kind in it looks like two values.

    v.kind.name ++ v.text = w.kind.name ++ w.text → v = w              (`eq_of_part`)
    without NUL characters: cacheKey c v = cacheKey d w ↔ c = d ∧ v = w (`cacheKey_eq_iff`)
    two requests, of strings with NUL characters, with one key         (`not_always_cacheKey_inj`)
-/

namespace AccessControl

/-! ## Values without floats -/

namespace Value

/-- No float is in a value. -/
inductive FloatFree : Value → Prop
  | bool (b : Bool) : FloatFree (.bool b)
  | int (n : Int64) : FloatFree (.int n)
  | str (s : String) : FloatFree (.str s)
  | list {items : List Value} (h : ∀ v ∈ items, FloatFree v) : FloatFree (.list items)
  | map {entries : List (String × Value)} (h : ∀ e ∈ entries, FloatFree e.2) :
      FloatFree (.map entries)

theorem itemsToJson_eq (items : List Value) : itemsToJson items = items.map toJson := by
  induction items with
  | nil => rfl
  | cons v rest ih => rw [itemsToJson, ih, List.map_cons]

theorem entriesToJson_eq (entries : List (String × Value)) :
    entriesToJson entries = entries.map fun e => (e.1, toJson e.2) := by
  induction entries with
  | nil => rfl
  | cons e rest ih => rw [entriesToJson, ih, List.map_cons]

theorem FloatFree.toJson {v : Value} (h : v.FloatFree) : v.toJson.FloatFree := by
  induction h with
  | bool b => exact .bool b
  | int n => exact .int n.toInt
  | str s => exact .str s
  | list _ ih =>
    rw [Value.toJson, itemsToJson_eq]
    exact .arr (List.forall_mem_map.2 ih)
  | map _ ih =>
    rw [Value.toJson, entriesToJson_eq]
    exact .obj (List.forall_mem_map.2 ih)

end Value

/-- Lists with the same images are the same, when their members are told apart. -/
theorem eq_of_map_eq {α β : Type} {f : α → β} {as bs : List α}
    (hinj : ∀ a ∈ as, ∀ b ∈ bs, f a = f b → a = b) (h : as.map f = bs.map f) : as = bs := by
  induction as generalizing bs with
  | nil => exact (List.map_eq_nil_iff.1 h.symm).symm
  | cons a as ih =>
    cases bs with
    | nil => simp at h
    | cons b bs =>
      obtain ⟨hhead, htail⟩ := List.cons.inj h
      rw [hinj a List.mem_cons_self b List.mem_cons_self hhead,
        ih (fun a ha b hb => hinj a (List.mem_cons_of_mem _ ha) b (List.mem_cons_of_mem _ hb)) htail]

namespace Value

/-- The JSON value tells the value. -/
theorem FloatFree.toJson_inj {v w : Value} (hv : v.FloatFree) (h : v.toJson = w.toJson) : v = w := by
  induction hv generalizing w with
  | bool b => cases w <;> simp_all [Value.toJson]
  | int n => cases w <;> simp_all [Value.toJson, Int64.toInt_inj]
  | str s => cases w <;> simp_all [Value.toJson]
  | list _ ih =>
    cases w with
    | list others =>
      rw [Value.toJson, Value.toJson, itemsToJson_eq, itemsToJson_eq] at h
      rw [eq_of_map_eq (fun v hv w _ heq => ih v hv heq) (Json.arr.inj h)]
    | _ => simp [Value.toJson] at h
  | map _ ih =>
    cases w with
    | map others =>
      rw [Value.toJson, Value.toJson, entriesToJson_eq, entriesToJson_eq] at h
      rw [eq_of_map_eq (fun e he f _ heq => ?_) (Json.obj.inj h)]
      obtain ⟨hname, hvalue⟩ := Prod.mk.inj heq
      exact Prod.ext hname (ih e he hvalue)
    | _ => simp [Value.toJson] at h

/-! ## Parts of a key -/

/-- The kind of a value and its text. -/
def part (v : Value) : String := v.kind.name ++ v.text

/-- The names of kinds differ in their first character. -/
theorem kind_eq_of_append {a b : Kind} {x y : List Char}
    (h : a.name.toList ++ x = b.name.toList ++ y) : a = b ∧ x = y := by
  cases a <;> cases b <;> simp [Kind.name] at h ⊢ <;> exact h

theorem compact_inj {a b : Json} (ha : a.FloatFree) (hb : b.FloatFree) (h : a.compact = b.compact) :
    a = b :=
  (Json.compact_append_inj (x := []) (y := []) ha hb stops_nil stops_nil (by rw [h])).1

theorem eq_of_text {v w : Value} (hv : v.FloatFree) (hw : w.FloatFree) (hkind : v.kind = w.kind)
    (h : v.text = w.text) : v = w := by
  cases v <;> cases w <;> simp only [kind, reduceCtorEq] at hkind
  case float.float => cases hv
  case str.str => exact congrArg Value.str h
  case bool.bool a b =>
    have hsame : a = b := by
      revert h
      cases a <;> cases b <;> decide
    rw [hsame]
  -- the other texts are compact ones
  all_goals exact hv.toJson_inj (compact_inj hv.toJson hw.toJson h)

/-- The part of a value tells the value. -/
theorem eq_of_part {v w : Value} (hv : v.FloatFree) (hw : w.FloatFree) (h : v.part = w.part) :
    v = w := by
  have hchars := congrArg String.toList h
  simp only [part, String.toList_append] at hchars
  obtain ⟨hkind, htext⟩ := kind_eq_of_append hchars
  exact eq_of_text hv hw hkind (String.toList_inj.1 htext)

/-- A string that is a value by itself has no NUL character. -/
def Unsplit : Value → Prop
  | .str s => '\x00' ∉ s.toList
  | _ => True

theorem nul_notMem_part {v : Value} (hv : v.FloatFree) (hs : v.Unsplit) : '\x00' ∉ v.part.toList := by
  have hkind : '\x00' ∉ v.kind.name.toList := by
    cases v.kind <;> decide
  rw [part, String.toList_append, List.mem_append, not_or]
  refine ⟨hkind, ?_⟩
  cases hv with
  | bool b => cases b <;> decide
  | int n => exact Json.nul_notMem_int n.toInt
  | str s => exact hs
  | list h => exact Json.nul_notMem_compact (FloatFree.list h).toJson
  | map h => exact Json.nul_notMem_compact (FloatFree.map h).toJson

end Value

/-! ## Keys -/

/-- No name has a NUL character. -/
def Context.Unsplit (ctx : Context) : Prop :=
  ∀ name ∈ [ctx.request, ctx.policy, ctx.effect, ctx.matcher], '\x00' ∉ name.toList

/-- The parts of a key. -/
def keyParts (ctx : Context) (request : List Value) : List String :=
  [ctx.request, ctx.policy, ctx.effect, ctx.matcher] ++ request.map Value.part

theorem toList_cacheKey (ctx : Context) (request : List Value) :
    (cacheKey ctx request).toList = (keyParts ctx request).flatMap fun p => p.toList ++ ['\x00'] := by
  simp [cacheKey, keyParts, Value.part, String.toList_join, String.toList_append, List.flatMap_map]

/-- What stands before the first of some characters is told apart by it. -/
theorem append_cons_inj {c : Char} {xs ys x y : List Char} (hx : c ∉ xs) (hy : c ∉ ys)
    (h : xs ++ c :: x = ys ++ c :: y) : xs = ys ∧ x = y := by
  induction xs generalizing ys with
  | nil =>
    cases ys with
    | nil => exact ⟨rfl, (List.cons.inj h).2⟩
    | cons d ys => exact absurd ((List.cons.inj h).1 ▸ List.mem_cons_self) hy
  | cons d xs ih =>
    cases ys with
    | nil => exact absurd ((List.cons.inj h).1 ▸ List.mem_cons_self) hx
    | cons e ys =>
      obtain ⟨rfl, htail⟩ := List.cons.inj h
      obtain ⟨rfl, hrest⟩ := ih (fun hmem => hx (List.mem_cons_of_mem _ hmem))
        (fun hmem => hy (List.mem_cons_of_mem _ hmem)) htail
      exact ⟨rfl, hrest⟩

/-- Parts without a NUL character, each with one behind it, are told apart. -/
theorem parts_inj {ps qs : List String} (hp : ∀ p ∈ ps, '\x00' ∉ p.toList)
    (hq : ∀ q ∈ qs, '\x00' ∉ q.toList)
    (h : (ps.flatMap fun p => p.toList ++ ['\x00']) = qs.flatMap fun q => q.toList ++ ['\x00']) :
    ps = qs := by
  induction ps generalizing qs with
  | nil =>
    cases qs with
    | nil => rfl
    | cons q qs => simp at h
  | cons p ps ih =>
    cases qs with
    | nil => simp at h
    | cons q qs =>
      rw [List.forall_mem_cons] at hp hq
      simp only [List.flatMap_cons, List.append_assoc, List.singleton_append] at h
      obtain ⟨hpq, hrest⟩ := append_cons_inj hp.1 hq.1 h
      rw [String.toList_inj.1 hpq, ih hp.2 hq.2 hrest]

/-- A request of which the key tells the values. -/
def KeyTells (ctx : Context) (request : List Value) : Prop :=
  ctx.Unsplit ∧ ∀ v ∈ request, v.FloatFree ∧ v.Unsplit

theorem KeyTells.parts {ctx : Context} {request : List Value} (h : KeyTells ctx request) :
    ∀ p ∈ keyParts ctx request, '\x00' ∉ p.toList := by
  intro p hp
  rcases List.mem_append.1 hp with hname | hvalue
  · exact h.1 p hname
  · obtain ⟨v, hv, rfl⟩ := List.mem_map.1 hvalue
    exact Value.nul_notMem_part (h.2 v hv).1 (h.2 v hv).2

theorem eq_of_cacheKey {c d : Context} {v w : List Value} (hv : KeyTells c v) (hw : KeyTells d w)
    (h : cacheKey c v = cacheKey d w) : c = d ∧ v = w := by
  have hchars := congrArg String.toList h
  rw [toList_cacheKey, toList_cacheKey] at hchars
  obtain ⟨hnames, hvalues⟩ := List.append_inj (parts_inj hv.parts hw.parts hchars) rfl
  refine ⟨?_, eq_of_map_eq (fun x hx y hy => ?_) hvalues⟩
  · cases c
    cases d
    simpa using hnames
  · exact Value.eq_of_part (hv.2 x hx).1 (hw.2 y hy).1

/-! ## Top theorem (proved from the lemmas above) -/

/-- **Keys tell requests apart.**  Two contexts and lists of values of any length, built of truth values,
integers, strings, lists and maps, have the same key exactly when they are the same, as long as no name and
no string that is a value by itself has a NUL character in it. -/
theorem cacheKey_eq_iff {c d : Context} {v w : List Value} (hc : c.Unsplit) (hd : d.Unsplit)
    (hv : ∀ x ∈ v, x.FloatFree ∧ x.Unsplit) (hw : ∀ x ∈ w, x.FloatFree ∧ x.Unsplit) :
    cacheKey c v = cacheKey d w ↔ c = d ∧ v = w := by
  constructor
  · exact eq_of_cacheKey ⟨hc, hv⟩ ⟨hd, hw⟩
  · rintro ⟨rfl, rfl⟩
    rfl

/-- An integer and its digits, and a list with a NUL character in it and its text, have different keys. -/
theorem cacheKey_eq_iff_apart :
    cacheKey {} [.int 1, .list [.str "\x00"]] ≠ cacheKey {} [.str "1", .str "[\"\\u0000\"]"] := by
  have hnames : ({} : Context).Unsplit := by unfold Context.Unsplit; decide
  intro h
  have heq := (cacheKey_eq_iff hnames hnames (by
    simp only [List.forall_mem_cons]
    exact ⟨⟨.int 1, trivial⟩, ⟨.list (by simpa using .str _), trivial⟩, by simp⟩) (by
    simp only [List.forall_mem_cons]
    exact ⟨⟨.str _, by unfold Value.Unsplit; decide⟩, ⟨.str _, by unfold Value.Unsplit; decide⟩,
      by simp⟩)).1 h
  simp at heq

/-- A NUL character in a string moves the end of a value: two requests of two strings have one key. -/
theorem not_always_cacheKey_inj : ¬ ∀ (c d : Context) (v w : List Value),
    (∀ x ∈ v, x.FloatFree) → (∀ x ∈ w, x.FloatFree) → cacheKey c v = cacheKey d w → c = d ∧ v = w := by
  intro hall
  obtain ⟨-, heq⟩ := hall {} {} [.str "a", .str "b\x00stringc"] [.str "a\x00stringb", .str "c"]
    (by simp [Value.FloatFree.str]) (by simp [Value.FloatFree.str]) rfl
  simp at heq

end AccessControl
