import QueryStats.Decimal
import QueryStats.Proofs.Nearest

/-!
# Decimal values as doubles

A decimal value becomes the double nearest to it.  A short one is a single product or quotient of
two whole numbers that are doubles themselves; any other is multiplied or divided out in full before
it is rounded once.
-/

namespace QueryStats

open Float.Model UnpackedFloat

namespace Double

/-! ## Powers of ten -/

/-- The powers of ten that are doubles: each is a power of five that fits a mantissa, but for its
exponent. -/
theorem powerOfTen_eq : ∀ k : Fin 23, Float.exactlyRepresentablePowersOfTen[k] =
    .ofModel (.pack (.finite .positive (5 ^ k.val * 2 ^ (52 - (5 ^ k.val).log2))
      (k.val + (5 ^ k.val).log2 - 52) (by positivity))) := by
  decide +kernel

/-- A mantissa brought to 53 bits. -/
theorem filled {n : ℕ} (h : 0 < n) (hn : n < 2 ^ 53) (j : ℤ) :
    2 ^ 52 ≤ n * 2 ^ (52 - n.log2) ∧
      ((n * 2 ^ (52 - n.log2) : ℕ) : ℚ) * 2 ^ (j + n.log2 - 52) = n * 2 ^ j := by
  have hlog := log2_le_of_lt hn
  refine ⟨?_, ?_⟩
  · calc 2 ^ 52
      _ = 2 ^ n.log2 * 2 ^ (52 - n.log2) := by rw [← pow_add]; congr 1; omega
      _ ≤ n * 2 ^ (52 - n.log2) := Nat.mul_le_mul_right _ (Nat.log2_self_le h.ne')
  · rw [show j + n.log2 - 52 = j - (52 - n.log2 : ℕ) by omega, mul_two_pow_mul]

/-- The powers of ten that a double holds exactly are those whose power of five fits its
mantissa. -/
theorem five_pow_lt (k : Fin 23) : 5 ^ k.val < 2 ^ 53 := by
  have hpow : 5 ^ k.val ≤ 5 ^ 22 := Nat.pow_le_pow_right (by decide) (Nat.le_of_lt_succ k.isLt)
  exact hpow.trans_lt (by decide)

/-- The mantissa of such a power of ten is its power of five, moved up to 53 bits. -/
theorem unpack_powerOfTen (k : Fin 23) :
    (Float.exactlyRepresentablePowersOfTen[k]).toModel.unpack =
      .finite .positive (5 ^ k.val * 2 ^ (52 - (5 ^ k.val).log2)) (k.val + (5 ^ k.val).log2 - 52)
        (by positivity) := by
  have hpos : 0 < 5 ^ k.val := by positivity
  have hlog := log2_le_of_lt (five_pow_lt k)
  rw [powerOfTen_eq k]
  refine unpack_pack_normal .positive _ ?_ (by omega) (by omega)
  rw [log2_mul_two_pow hpos]
  omega

/-- With its exponent it is the power of ten. -/
theorem powerOfTen_mul (k : Fin 23) :
    ((5 ^ k.val * 2 ^ (52 - (5 ^ k.val).log2) : ℕ) : ℚ) *
      2 ^ ((k.val : ℤ) + (5 ^ k.val).log2 - 52) = 10 ^ k.val := by
  rw [(filled (by positivity) (five_pow_lt k) _).2, zpow_natCast, Nat.cast_pow, ← mul_pow]
  norm_num

/-- A whole number and a power of ten that are doubles both: one operation is enough. -/
theorem exists_nearest_short {m : ℕ} (hm : m < 2 ^ 53) (k : Fin 23) :
    (∃ u, Nearest (m * 10 ^ k.val) u ∧
      m.toUInt64.toFloat * Float.exactlyRepresentablePowersOfTen[k] = .ofModel (.pack u)) ∧
    ∃ u, Nearest (m / 10 ^ k.val) u ∧
      m.toUInt64.toFloat / Float.exactlyRepresentablePowersOfTen[k] = .ofModel (.pack u) := by
  have hunpack : m.toUInt64.toFloat.toModel.unpack = whole m := by
    rw [ofUInt64_eq hm]
    exact unpack_pack_whole hm
  have hmul : m.toUInt64.toFloat * Float.exactlyRepresentablePowersOfTen[k] =
      .ofModel (.pack (.mul Format.binary64 m.toUInt64.toFloat.toModel.unpack
        (Float.exactlyRepresentablePowersOfTen[k]).toModel.unpack)) := rfl
  have hdiv : m.toUInt64.toFloat / Float.exactlyRepresentablePowersOfTen[k] =
      .ofModel (.pack (.div Format.binary64 m.toUInt64.toFloat.toModel.unpack
        (Float.exactlyRepresentablePowersOfTen[k]).toModel.unpack)) := rfl
  rw [hmul, hdiv, hunpack, unpack_powerOfTen, ← powerOfTen_mul]
  obtain rfl | hpos := Nat.eq_zero_or_pos m
  · have hzero := nearest_zero (le_refl 0) (by positivity)
    exact ⟨⟨.zero .positive, by simpa using hzero, rfl⟩, .zero .positive, by simpa using hzero, rfl⟩
  · obtain ⟨hfull, hvalue⟩ := filled hpos hm 0
    rw [zpow_zero, mul_one, zero_add] at hvalue
    rw [whole_of_pos hpos, ← hvalue]
    refine ⟨⟨_, nearest_mul _ _ ?_, rfl⟩, _, nearest_div _ _, rfl⟩
    exact le_target_mul (by positivity) (.inl hfull)
      (.inl (filled (by positivity) (five_pow_lt k) 0).1)

end Double

namespace Decimal

open Double

/-- The value as a rational number. -/
def toRat (d : Decimal) : ℚ := d.mantissa * 10 ^ d.exponent

/-- A power of two that is not passed by a decimal with a very small exponent. -/
theorem mul_ten_zpow_le {m : ℕ} {e : ℤ} (h : e < -(2 ^ 11 + m.log2)) :
    (m : ℚ) * 10 ^ e ≤ 2 ^ (-1075 : ℤ) := by
  have hm : (m : ℚ) ≤ 2 ^ (m.log2 + 1) := by exact_mod_cast Nat.lt_log2_self.le
  obtain ⟨k, rfl⟩ : ∃ k : ℕ, e = -k := ⟨(-e).toNat, by omega⟩
  have hten : (10 : ℚ) ^ (-k : ℤ) ≤ 2 ^ (-k : ℤ) := by
    rw [zpow_neg, zpow_neg, zpow_natCast, zpow_natCast]
    gcongr
    norm_num
  calc (m : ℚ) * 10 ^ (-k : ℤ)
    _ ≤ 2 ^ (m.log2 + 1) * 2 ^ (-k : ℤ) := by gcongr
    _ = 2 ^ (((m.log2 + 1 : ℕ) : ℤ) + -k) := two_pow_mul_zpow _ _
    _ ≤ 2 ^ (-1075 : ℤ) := two_zpow_le (by push_cast; omega)

/-- A decimal with a very large exponent is larger than every double. -/
theorem overflow_le_mul_ten_zpow {m : ℕ} (hm : 0 < m) {e : ℤ} (h : 2 ^ 11 < e) :
    overflow ≤ (m : ℚ) * 10 ^ e := by
  have hone : (1 : ℚ) ≤ m := by exact_mod_cast hm
  have hpos : (0 : ℚ) < 2 ^ (970 : ℤ) := by positivity
  obtain ⟨k, rfl⟩ : ∃ k : ℕ, e = k := ⟨e.toNat, by omega⟩
  calc overflow
    _ ≤ 2 ^ (1024 : ℤ) := by rw [two_zpow_1024]; exact le_add_of_nonneg_right hpos.le
    _ ≤ 2 ^ (k : ℤ) := two_zpow_le (by omega)
    _ ≤ 10 ^ (k : ℤ) := by rw [zpow_natCast, zpow_natCast]; gcongr; norm_num
    _ ≤ m * 10 ^ (k : ℤ) := le_mul_of_one_le_left (by positivity) hone

/-- A decimal other than zero is rounded correctly, whatever its exponent. -/
theorem roundsTo_ofScientific_of_pos {m : ℕ} (hm : 0 < m) (e : ℤ) :
    RoundsTo (m * 10 ^ e) (.ofModel (.pack (UnpackedFloat.ofScientific Format.binary64 m e))) := by
  have hbits : Format.binary64.exponentBits = 11 := rfl
  have hmantissa : Format.binary64.mantissaBits = 53 := rfl
  rw [UnpackedFloat.ofScientific, dif_neg hm.ne', hbits]
  split_ifs with hlarge hsmall hnonneg
  · exact roundsTo_infinity (overflow_le_mul_ten_zpow hm hlarge)
  · exact (nearest_zero (by positivity) (mul_ten_zpow_le hsmall)).roundsTo
  -- The mantissa is made long enough for the product to be rounded.
  · obtain ⟨k, rfl⟩ : ∃ k : ℕ, e = k := ⟨e.toNat, by omega⟩
    have hvalue : (m : ℚ) * 10 ^ (k : ℤ) =
        ((m * 2 ^ 53 : ℕ) * 2 ^ (-53 : ℤ)) * ((10 ^ k : ℕ) * 2 ^ (0 : ℤ)) := by
      have hshift := mul_two_pow_mul m 53 0
      rw [zero_sub, zpow_zero, mul_one] at hshift
      push_cast at hshift ⊢
      rw [hshift, zpow_natCast, mul_one]
    simp only [Int.toNat_natCast, hmantissa, Nat.shiftLeft_eq]
    rw [hvalue]
    refine (nearest_mul _ _ (le_target ?_ _)).roundsTo
    calc 2 ^ 52
      _ ≤ m * 2 ^ 53 := by omega
      _ ≤ m * 2 ^ 53 * 10 ^ k := Nat.le_mul_of_pos_right _ (by positivity)
  · obtain ⟨k, rfl⟩ : ∃ k : ℕ, e = -k := ⟨(-e).toNat, by omega⟩
    have hvalue : (m : ℚ) * 10 ^ (-k : ℤ) = (m * 2 ^ (0 : ℤ)) / ((10 ^ k : ℕ) * 2 ^ (0 : ℤ)) := by
      rw [zpow_neg, zpow_natCast, zpow_zero, mul_one, mul_one, div_eq_mul_inv, Nat.cast_pow,
        Nat.cast_ofNat]
    simp only [neg_neg, Int.toNat_natCast]
    rw [hvalue]
    exact (nearest_div _ _).roundsTo

/-- Every decimal is rounded correctly. -/
theorem roundsTo_ofScientific (m : ℕ) (e : ℤ) :
    RoundsTo (m * 10 ^ e) (.ofModel (Float.Model.ofScientific m e)) := by
  obtain rfl | hm := Nat.eq_zero_or_pos m
  · rw [Nat.cast_zero, zero_mul]
    exact (nearest_zero (le_refl 0) (by positivity)).roundsTo
  · exact roundsTo_ofScientific_of_pos hm e

/-- The double of a decimal is the one that its value rounds to. -/
theorem roundsTo_toFloat (d : Decimal) : RoundsTo d.toRat d.toFloat := by
  obtain ⟨m, e⟩ := d
  change RoundsTo (m * 10 ^ e) (Float.ofScientific m (decide (e < 0)) e.natAbs)
  rw [Float.ofScientific]
  simp only [decide_eq_true_eq]
  split_ifs with hshort hsign hsign
  · obtain ⟨-, u, hu, hdiv⟩ := exists_nearest_short hshort.1 ⟨e.natAbs, by omega⟩
    have hvalue : (m : ℚ) * 10 ^ e = m / 10 ^ e.natAbs := by
      rw [show e = -(e.natAbs : ℤ) by omega, zpow_neg, zpow_natCast, Int.natAbs_neg,
        Int.natAbs_natCast, div_eq_mul_inv]
    rw [hvalue]
    exact hdiv ▸ hu.roundsTo
  · obtain ⟨⟨u, hu, hmul⟩, -⟩ := exists_nearest_short hshort.1 ⟨e.natAbs, by omega⟩
    have hvalue : (m : ℚ) * 10 ^ e = m * 10 ^ e.natAbs := by
      rw [← zpow_natCast, Int.natAbs_of_nonneg (not_lt.1 hsign)]
    rw [hvalue]
    exact hmul ▸ hu.roundsTo
  · rw [show Int.negOfNat e.natAbs = e by rw [Int.negOfNat_eq, Int.ofNat_eq_natCast]; omega]
    exact roundsTo_ofScientific m e
  · rw [Int.ofNat_eq_natCast, Int.natAbs_of_nonneg (not_lt.1 hsign)]
    exact roundsTo_ofScientific m e

end Decimal

end QueryStats
