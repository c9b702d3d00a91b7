import QueryStats.Proofs.Rounding

/-!
# Operations on doubles round

Each operation computes with the exact value first, at an exponent small enough for it, and rounds
once.
-/

namespace QueryStats.Double

open Float.Model UnpackedFloat

/-! ## Sums, differences and products -/

/-- The value at a decreased exponent. -/
theorem value_decreased (s : Sign) (m : ℕ) (e : ℤ) (h : 0 < m) {t : ℤ} (ht : t ≤ e) :
    value (.finite s m e h) = (s.apply (m * 2 ^ (e - t).toNat : ℕ) : ℤ) * 2 ^ t := by
  obtain ⟨k, rfl⟩ : ∃ k : ℕ, e = t + k := ⟨(e - t).toNat, by omega⟩
  rw [show (t + k - t).toNat = k by omega, value, zpow_add₀ (by norm_num), zpow_natCast]
  cases s <;> simp only [Sign.apply] <;> push_cast <;> ring

section

variable {x y : UnpackedFloat}

/-- Sums are rounded. -/
theorem rounds_add (hx : Canonical x) (hy : Canonical y) :
    Rounds (value x + value y) (UnpackedFloat.add Format.binary64 x y) := by
  cases x with
  | infinity | notANumber => exact hx.elim
  | zero s =>
    cases y with
    | infinity | notANumber => exact hy.elim
    | zero s' =>
      have hvalue : value (.zero s) + value (.zero s') = 0 := add_zero _
      rw [hvalue, UnpackedFloat.add]
      split <;> exact rounds_zero _
    | finite =>
      rw [show value (.zero s) = 0 from rfl, zero_add]
      exact hy.rounds
  | finite s m e h =>
    cases y with
    | infinity | notANumber => exact hy.elim
    | zero s' =>
      rw [show value (.zero s') = 0 from rfl, add_zero]
      exact hx.rounds
    | finite s' m' e' h' =>
      rw [value_decreased s m e h (min_le_left e e'),
        value_decreased s' m' e' h' (min_le_right e e'), ← add_mul, ← Int.cast_add]
      simp only [UnpackedFloat.add, decreaseExponent_eq]
      exact rounds_normalize _ _

/-- Differences are rounded. -/
theorem rounds_sub (hx : Canonical x) (hy : Canonical y) :
    Rounds (value x - value y) (UnpackedFloat.sub Format.binary64 x y) := by
  cases x with
  | infinity | notANumber => exact hx.elim
  | zero s =>
    cases y with
    | infinity | notANumber => exact hy.elim
    | zero s' =>
      have hvalue : value (.zero s) - value (.zero s') = 0 := sub_zero _
      rw [hvalue, UnpackedFloat.sub]
      split <;> exact rounds_zero _
    | finite s' m e h =>
      have hneg : Canonical (.finite (-s') m e h) := hy
      rw [show value (.zero s) = 0 from rfl, zero_sub]
      refine hneg.rounds.of_abs_eq ?_
      rw [abs_neg, abs_value_finite, abs_value_finite]
  | finite s m e h =>
    cases y with
    | infinity | notANumber => exact hy.elim
    | zero s' =>
      rw [show value (.zero s') = 0 from rfl, sub_zero]
      exact hx.rounds
    | finite s' m' e' h' =>
      rw [value_decreased s m e h (min_le_left e e'),
        value_decreased s' m' e' h' (min_le_right e e'), ← sub_mul, ← Int.cast_sub]
      simp only [UnpackedFloat.sub, decreaseExponent_eq]
      exact rounds_normalize _ _

/-- The mantissa of a product is long enough to be rounded, unless it is at the least exponent. -/
theorem le_target_mul {m m' : ℕ} {e e' : ℤ} (h : 0 < m * m') (hm : 2 ^ 52 ≤ m ∨ e = -1074)
    (hm' : 2 ^ 52 ≤ m' ∨ e' = -1074) : e + e' ≤ target (m * m') (e + e') := by
  have hlog : 2 ^ 52 ≤ m ∨ 2 ^ 52 ≤ m' → 52 ≤ (m * m').log2 := by
    rw [Nat.le_log2 (Nat.ne_of_gt h)]
    rintro (hle | hle)
    · exact hle.trans (Nat.le_mul_of_pos_right m (Nat.pos_of_mul_pos_left h))
    · exact hle.trans (Nat.le_mul_of_pos_left m' (Nat.pos_of_mul_pos_right h))
  rw [target]
  omega

/-- Products are rounded. -/
theorem rounds_mul (hx : Canonical x) (hy : Canonical y) :
    Rounds (value x * value y) (UnpackedFloat.mul Format.binary64 x y) := by
  cases x with
  | infinity | notANumber => exact hx.elim
  | zero s =>
    rw [show value (.zero s) = 0 from rfl, zero_mul]
    cases y with
    | infinity | notANumber => exact hy.elim
    | zero | finite => exact rounds_zero _
  | finite s m e h =>
    cases y with
    | infinity | notANumber => exact hy.elim
    | zero s' =>
      rw [show value (.zero s') = 0 from rfl, mul_zero]
      exact rounds_zero _
    | finite s' m' e' h' =>
      have htarget := le_target_mul (Nat.mul_pos h h') hx.2.2 hy.2.2
      have hreads : Reads (.ofMantissaAndAccuracy (m * m') .exact) (m * m' : ℕ) := rfl
      refine (rounds_roundWithAccuracy (s * s') hreads htarget).of_abs_eq ?_
      have hnonneg : (0 : ℚ) ≤ (m * m' : ℕ) * 2 ^ (e + e') := by positivity
      rw [abs_of_nonneg hnonneg, abs_mul, abs_value_finite, abs_value_finite,
        zpow_add₀ (by norm_num)]
      push_cast
      ring

/-! ## Quotients -/

/-- A quotient with the kind of its remainder stands for the exact quotient. -/
theorem reads_div (n : ℕ) {d : ℕ} (hd : 0 < d) :
    Reads (.ofMantissaAndAccuracy (n / d) (accuracyOfFraction (n % d) d)) (n / d : ℚ) := by
  have hd' : (0 : ℚ) < d := by exact_mod_cast hd
  have hsplit : (n / d : ℚ) = (n / d : ℕ) + (n % d : ℕ) / d := by
    rw [div_eq_iff (ne_of_gt hd'), add_mul, div_mul_cancel₀ _ (ne_of_gt hd')]
    exact_mod_cast (Nat.div_add_mod' n d).symm
  have hlt : ((n % d : ℕ) : ℚ) < d := by exact_mod_cast Nat.mod_lt n hd
  rw [hsplit]
  generalize n / d = q
  generalize n % d = r at *
  rw [accuracyOfFraction]
  split
  case isTrue h => simp [h, ExtendedMantissa.ofMantissaAndAccuracy, Reads]
  case isFalse h =>
    have hr : (0 : ℚ) < r := by exact_mod_cast Nat.pos_of_ne_zero h
    cases hc : compare (2 * r) d with
    | lt =>
      have hhalf : (2 : ℚ) * r < d := by exact_mod_cast Nat.compare_eq_lt.1 hc
      change _ < _ + _ ∧ (q : ℚ) + r / d < q + 1 / 2
      refine ⟨lt_add_of_pos_right _ (div_pos hr hd'), ?_⟩
      rw [add_lt_add_iff_left, div_lt_iff₀ hd']
      linarith
    | eq =>
      have hhalf : (2 : ℚ) * r = d := by exact_mod_cast Nat.compare_eq_eq.1 hc
      change (q : ℚ) + r / d = q + 1 / 2
      rw [add_right_inj, div_eq_iff (ne_of_gt hd')]
      linarith
    | gt =>
      have hhalf : (d : ℚ) < 2 * r := by exact_mod_cast Nat.compare_eq_gt.1 hc
      change (q : ℚ) + 1 / 2 < q + r / d ∧ (q : ℚ) + r / d < q + 1
      refine ⟨?_, ?_⟩
      · rw [add_lt_add_iff_left, lt_div_iff₀ hd']
        linarith
      · rw [add_lt_add_iff_left, div_lt_iff₀ hd']
        linarith

/-- How far a mantissa is shifted before it is divided. -/
theorem le_target_div {m m' : ℕ} (h : 0 < m) (h' : 0 < m') (k : ℕ) {t : ℤ}
    (ht : t ≤ Format.binary64.targetExponent (m.log2 + k - m'.log2 + t)) :
    t ≤ target (m * 2 ^ k / m') t := by
  -- A quotient has at most one bit fewer than the lengths of its operands differ by.
  have hlog : (m.log2 : ℤ) + k - m'.log2 ≤ (m * 2 ^ k / m').log2 + 1 := by
    by_cases hle : m.log2 + k ≤ m'.log2
    · omega
    · have hnum : 2 ^ (m.log2 + k) ≤ m * 2 ^ k := by
        rw [pow_add]
        exact Nat.mul_le_mul_right _ (Nat.log2_self_le (Nat.ne_of_gt h))
      have hquot : 2 ^ (m.log2 + k - m'.log2 - 1) ≤ m * 2 ^ k / m' := by
        rw [Nat.le_div_iff_mul_le h']
        calc 2 ^ (m.log2 + k - m'.log2 - 1) * m'
          _ ≤ 2 ^ (m.log2 + k - m'.log2 - 1) * 2 ^ (m'.log2 + 1) :=
            Nat.mul_le_mul_left _ (Nat.le_of_lt Nat.lt_log2_self)
          _ = 2 ^ (m.log2 + k) := by rw [← pow_add]; congr 1; omega
          _ ≤ m * 2 ^ k := hnum
      have hne : m * 2 ^ k / m' ≠ 0 := Nat.ne_of_gt (Nat.lt_of_lt_of_le (Nat.two_pow_pos _) hquot)
      have := (Nat.le_log2 hne).2 hquot
      omega
  rw [targetExponent_eq] at ht
  rw [target]
  omega

/-- A quotient is taken at an exponent that leaves bits enough to round it. -/
theorem exists_div (s s' : Sign) {m m' : ℕ} (e e' : ℤ) (h : 0 < m) (h' : 0 < m') :
    ∃ n t acc v, Reads (.ofMantissaAndAccuracy n acc) v ∧ t ≤ target n t ∧
      v * 2 ^ t = (m * 2 ^ e) / (m' * 2 ^ e') ∧
      UnpackedFloat.div Format.binary64 (.finite s m e h) (.finite s' m' e' h') =
        roundWithAccuracy Format.binary64 (s / s') n t acc := by
  simp only [UnpackedFloat.div, divCore, Nat.shiftLeft_eq]
  generalize ht : min (e - e') (Format.binary64.targetExponent
    (totalExponent m e - totalExponent m' e')) = t
  obtain ⟨k, hk⟩ : ∃ k : ℕ, e - e' = t + k := ⟨(e - e' - t).toNat, by omega⟩
  have htarget : t ≤ target (m * 2 ^ k / m') t := by
    refine le_target_div h h' k ?_
    rw [totalExponent, totalExponent] at ht
    rw [show (m.log2 : ℤ) + k - m'.log2 + t = m.log2 + 1 + e - (m'.log2 + 1 + e') by omega]
    omega
  rw [show (e - e' - t).toNat = k by omega]
  refine ⟨_, t, _, _, reads_div _ h', htarget, ?_, rfl⟩
  have hm' : (m' : ℚ) ≠ 0 := by exact_mod_cast Nat.ne_of_gt h'
  have he : e = e' + (t + k) := by omega
  rw [he, zpow_add₀ (by norm_num), zpow_add₀ (by norm_num), zpow_natCast]
  push_cast
  field_simp

/-- Quotients are rounded. -/
theorem rounds_div (hx : Canonical x) (hy : Canonical y) (hzero : value y ≠ 0) :
    Rounds (value x / value y) (UnpackedFloat.div Format.binary64 x y) := by
  cases y with
  | infinity | notANumber => exact hy.elim
  | zero => exact absurd rfl hzero
  | finite s' m' e' h' =>
    cases x with
    | infinity | notANumber => exact hx.elim
    | zero s =>
      rw [show value (.zero s) = 0 from rfl, zero_div]
      exact rounds_zero _
    | finite s m e h =>
      obtain ⟨n, t, acc, v, hr, ht, hvalue, heq⟩ := exists_div s s' e e' h h'
      rw [heq]
      refine (rounds_roundWithAccuracy (s / s') hr ht).of_abs_eq ?_
      have hnonneg : (0 : ℚ) ≤ (m * 2 ^ e) / (m' * 2 ^ e') := by positivity
      rw [hvalue, abs_of_nonneg hnonneg, abs_div, abs_value_finite, abs_value_finite]

end

end QueryStats.Double
