import AccessControl.Number.Digits
import Mathlib.Data.List.Basic
/-!
# Decimal digits

The digits of a number are read back up to the first character that is no digit.

    Number.decimalValue (Nat.repr n).toList = n                        (`decimalValue_repr`)
    digits of m, then x = digits of n, then y → m = n ∧ x = y          (`repr_append_inj`)
-/

namespace AccessControl

/-- A text that does not go on with a digit. -/
def Stops (cs : List Char) : Prop := ∀ c ∈ cs.head?, c.isDigit = false

theorem stops_nil : Stops [] := by
  intro c hc
  simp at hc

theorem stops_cons {c : Char} (h : c.isDigit = false) (cs : List Char) : Stops (c :: cs) := by
  intro d hd
  rw [List.head?_cons, Option.mem_some_iff] at hd
  rwa [← hd]

theorem takeWhile_digits {ds x : List Char} (hd : ∀ c ∈ ds, c.isDigit = true) (hx : Stops x) :
    (ds ++ x).takeWhile Char.isDigit = ds := by
  rw [List.takeWhile_append_of_pos hd]
  cases x with
  | nil => simp
  | cons c rest => rw [List.takeWhile_cons_of_neg (by simp [hx c rfl]), List.append_nil]

theorem dropWhile_digits {ds x : List Char} (hd : ∀ c ∈ ds, c.isDigit = true) (hx : Stops x) :
    (ds ++ x).dropWhile Char.isDigit = x := by
  rw [List.dropWhile_append_of_pos hd]
  cases x with
  | nil => rfl
  | cons c rest => rw [List.dropWhile_cons_of_neg (by simp [hx c rfl])]

theorem toList_repr (n : Nat) : (Nat.repr n).toList = Nat.toDigits 10 n := by
  rw [Nat.repr, String.toList_ofList]

theorem isDigit_of_mem_repr {n : Nat} {c : Char} (h : c ∈ (Nat.repr n).toList) : c.isDigit = true := by
  rw [toList_repr] at h
  exact Nat.isDigit_of_mem_toDigits (by omega) (by omega) h

theorem decimalValue_repr (n : Nat) : Number.decimalValue (Nat.repr n).toList = n := by
  rw [toList_repr]
  exact Nat.ofDigitChars_toDigits (by omega) (by omega)

theorem repr_append_inj {m n : Nat} {x y : List Char} (hx : Stops x) (hy : Stops y)
    (h : (Nat.repr m).toList ++ x = (Nat.repr n).toList ++ y) : m = n ∧ x = y := by
  have hdigits : (Nat.repr m).toList = (Nat.repr n).toList := by
    rw [← takeWhile_digits (fun _ => isDigit_of_mem_repr) hx, h,
      takeWhile_digits (fun _ => isDigit_of_mem_repr) hy]
  rw [hdigits] at h
  rw [toList_repr, toList_repr] at hdigits
  have hvalue := congrArg (fun ds => Nat.ofDigitChars 10 ds 0) hdigits
  simp only [Nat.ofDigitChars_toDigits (by omega : 1 < 10) (by omega)] at hvalue
  exact ⟨hvalue, List.append_cancel_left h⟩

/-- The text of an integer without a sign is one of digits, the other one has the sign in front. -/
theorem toList_int (n : Int) :
    (∃ k : Nat, n = k ∧ (toString n).toList = (Nat.repr k).toList) ∨
      ∃ k : Nat, n = Int.negSucc k ∧ (toString n).toList = '-' :: (Nat.repr (k + 1)).toList := by
  cases n with
  | ofNat k => exact Or.inl ⟨k, rfl, rfl⟩
  | negSucc k => exact Or.inr ⟨k, rfl, String.toList_append⟩

/-- The first character of the digits of a number. -/
theorem repr_cons (n : Nat) : ∃ c rest, c.isDigit = true ∧ (Nat.repr n).toList = c :: rest := by
  cases hdigits : (Nat.repr n).toList with
  | nil => exact absurd (toList_repr n ▸ hdigits) Nat.toDigits_ne_nil
  | cons c rest => exact ⟨c, rest, isDigit_of_mem_repr (hdigits ▸ List.mem_cons_self), rfl⟩

theorem int_append_inj {m n : Int} {x y : List Char} (hx : Stops x) (hy : Stops y)
    (h : (toString m).toList ++ x = (toString n).toList ++ y) : m = n ∧ x = y := by
  rcases toList_int m with ⟨a, rfl, ha⟩ | ⟨a, rfl, ha⟩ <;>
    rcases toList_int n with ⟨b, rfl, hb⟩ | ⟨b, rfl, hb⟩ <;> rw [ha, hb] at h
  · obtain ⟨rfl, hrest⟩ := repr_append_inj hx hy h
    exact ⟨rfl, hrest⟩
  · obtain ⟨c, rest, hc, hcons⟩ := repr_cons a
    rw [hcons] at h
    obtain ⟨rfl, -⟩ := List.cons.inj h
    exact absurd hc (by decide)
  · obtain ⟨c, rest, hc, hcons⟩ := repr_cons b
    rw [hcons] at h
    obtain ⟨rfl, -⟩ := List.cons.inj h
    exact absurd hc (by decide)
  · obtain ⟨hab, hrest⟩ := repr_append_inj hx hy (List.cons.inj h).2
    obtain rfl : a = b := by omega
    exact ⟨rfl, hrest⟩

end AccessControl
