import Mathlib.Data.List.Basic
import QueryStats.Decimal.Literal

/-!
# Whole numbers written in decimal

The digits of a number are read back as that number, and no number but zero starts with a zero.
-/

namespace QueryStats

/-! ## Runs of bytes -/

/-- A run of bytes ends where a byte follows that is not of its kind. -/
theorem takeWhile_append_dropWhile {p : UInt8 → Bool} {t rest : Text} (ht : ∀ b ∈ t, p b)
    (hrest : rest.head?.all (!p ·)) :
    (t ++ rest).takeWhile p = t ∧ (t ++ rest).dropWhile p = rest := by
  rw [List.takeWhile_append_of_pos ht, List.dropWhile_append_of_pos ht]
  cases rest with
  | nil => simp
  | cons b rest =>
    have hb : p b = false := by simpa using hrest
    simp [hb]

/-! ## Digits -/

/-- The digit of a value below ten is a digit of that value. -/
theorem Byte.isDigit_ofDigit : ∀ d < 10,
    Byte.isDigit (Byte.ofDigit d) ∧ Byte.digitValue (Byte.ofDigit d) = d := by decide

/-- No digit comes before the zero. -/
theorem Byte.le_of_isDigit {b : UInt8} (h : Byte.isDigit b) : 0x30 ≤ b :=
  of_decide_eq_true (Bool.and_eq_true_iff.1 h).1

namespace Text

/-- A number below ten is written with one digit. -/
theorem ofNat_of_lt {n : Nat} (h : n < 10) : ofNat n = [Byte.ofDigit n] := by
  rw [ofNat, Nat.toDigits_of_lt_base h]
  rfl

/-- A larger number is written with the digits of a tenth of it and one more. -/
theorem ofNat_of_le {n : Nat} (h : 10 ≤ n) :
    ofNat n = ofNat (n / 10) ++ [Byte.ofDigit (n % 10)] := by
  rw [ofNat, Nat.toDigits_of_base_le (by omega) h, List.map_append]
  rfl

/-- Induction along the digits of a number, from the first to the last. -/
theorem digits_induction {P : Nat → Prop} (digit : ∀ n < 10, P n)
    (concat : ∀ n, 10 ≤ n → P (n / 10) → P n) (n : Nat) : P n := by
  induction n using Nat.strongRecOn with
  | ind n ih =>
    by_cases h : n < 10
    · exact digit n h
    · exact concat n (by omega) (ih (n / 10) (by omega))

/-- A number is written with digits only. -/
theorem isDigit_of_mem_ofNat (n : Nat) : ∀ b ∈ ofNat n, Byte.isDigit b := by
  induction n using digits_induction with
  | digit n h =>
    rw [ofNat_of_lt h]
    simpa using (Byte.isDigit_ofDigit n h).1
  | concat n h ih =>
    rw [ofNat_of_le h, List.forall_mem_append]
    exact ⟨ih, by simpa using (Byte.isDigit_ofDigit (n % 10) (by omega)).1⟩

/-- A number is written with at least one digit. -/
theorem ofNat_ne_nil (n : Nat) : ofNat n ≠ [] := by simp [ofNat, Nat.toDigits_ne_nil]

/-- A number is read back from its digits. -/
@[simp] theorem toNat_ofNat (n : Nat) : toNat (ofNat n) = n := by
  induction n using digits_induction with
  | digit n h =>
    rw [ofNat_of_lt h, toNat, List.foldl_cons, List.foldl_nil, (Byte.isDigit_ofDigit n h).2]
    omega
  | concat n h ih =>
    rw [ofNat_of_le h, toNat_concat, ih, (Byte.isDigit_ofDigit (n % 10) (by omega)).2]
    omega

/-- No number has a zero in front, but for zero itself. -/
theorem head?_ofNat (n : Nat) : (ofNat n).length = 1 ∨ (ofNat n).head? ≠ some 0x30 := by
  have hhead : ∀ n, n ≠ 0 → (ofNat n).head? ≠ some 0x30 := by
    intro n
    induction n using digits_induction with
    | digit n h =>
      have hdigit : ∀ d < 10, d ≠ 0 → Byte.ofDigit d ≠ 0x30 := by decide
      intro hn
      simpa [ofNat_of_lt h] using hdigit n h hn
    | concat n h ih =>
      intro _
      rw [ofNat_of_le h, List.head?_append_of_ne_nil _ (ofNat_ne_nil _)]
      exact ih (by omega)
  by_cases h : n = 0
  · exact .inl (by subst h; rfl)
  · exact .inr (hhead n h)

end Text

end QueryStats
