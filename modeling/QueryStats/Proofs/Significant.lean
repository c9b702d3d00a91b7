import QueryStats.Decimal.Rounding
import QueryStats.Proofs.Decimals

/-!
# Values rounded to significant digits

With `n` significant digits one can write the multiples of a unit, which is the power of ten that
gives the value `n` digits in front of the point.  A quotient is rounded to the nearest of them, and
to the even one of two that are equally near.  Whole numbers with no more than `n` digits are such
multiples themselves, so that rounding leaves them alone.
-/

namespace QueryStats.Decimal

/-! ## Nearest integers -/

/-- The integer nearest to a value, and the even one of two that are equally near. -/
structure IsNearest (w : ℚ) (m : ℤ) : Prop where
  le (k : ℤ) : |w - m| ≤ |w - k|
  even (k : ℤ) : k ≠ m → |w - k| = |w - m| → Even m

section

variable {w : ℚ} {m k z : ℤ}

/-- Two integers are no farther apart than a value is from both of them. -/
theorem one_le_of_ne (h : k ≠ m) : 1 ≤ |w - k| + |w - m| := by
  have hone : (1 : ℚ) ≤ |(m : ℚ) - k| := by exact_mod_cast Int.one_le_abs (sub_ne_zero.2 h.symm)
  calc (1 : ℚ)
    _ ≤ |(m : ℚ) - k| := hone
    _ = |(w - k) - (w - m)| := by rw [sub_sub_sub_cancel_left]
    _ ≤ |w - k| + |w - m| := abs_sub _ _

/-- What is no more than a half away is nearest, if it is even where it is a half away. -/
theorem isNearest_of_le_half (hle : |w - m| ≤ 1 / 2) (heven : |w - m| = 1 / 2 → Even m) :
    IsNearest w m where
  le k := by
    obtain rfl | hne := eq_or_ne k m
    · exact le_rfl
    · linarith [one_le_of_ne (w := w) hne]
  even k hne heq := by
    have hone := one_le_of_ne (w := w) hne
    exact heven (by linarith)

/-- Rounding to an integer does not depend on the sign. -/
theorem IsNearest.neg (h : IsNearest w m) : IsNearest (-w) (-m) := by
  have hdist : ∀ k : ℤ, |-w - k| = |w - ((-k : ℤ) : ℚ)| := by
    intro k
    rw [← abs_neg, Int.cast_neg]
    congr 1
    ring
  refine ⟨fun k => ?_, fun k hne heq => (h.even (-k) (by omega) ?_).neg⟩
  · rw [hdist, hdist, neg_neg]
    exact h.le (-k)
  · rwa [hdist, hdist, neg_neg] at heq

/-- Two even integers are not both nearest, since the one halfway between them is nearer. -/
theorem IsNearest.unique (h : IsNearest w m) (h' : IsNearest w k) : m = k := by
  by_contra hne
  have heq : |w - m| = |w - k| := le_antisymm (h.le k) (h'.le m)
  obtain ⟨i, rfl⟩ := h.even k (Ne.symm hne) heq.symm
  obtain ⟨j, rfl⟩ := h'.even _ hne heq
  have hhalf := h.le (i + j)
  push_cast at heq hhalf
  obtain hsame | hopposite := abs_eq_abs.1 heq
  · have hij : (i : ℚ) = j := by linarith
    exact hne (by rw [Int.cast_injective hij])
  · have hzero : w - (i + j) = 0 := by linarith
    rw [hzero, abs_zero] at hhalf
    have hi : w - (i + i) = 0 := abs_eq_zero.1 (le_antisymm hhalf (abs_nonneg _))
    have hij : (i : ℚ) = j := by linarith
    exact hne (by rw [Int.cast_injective hij])

/-- An integer is nearest to itself. -/
theorem isNearest_intCast (z : ℤ) : IsNearest (z : ℚ) z := by
  have hzero : |(z : ℚ) - z| = 0 := by rw [sub_self, abs_zero]
  exact isNearest_of_le_half (by rw [hzero]; norm_num) (by rw [hzero]; norm_num)

end

/-! ## Rounding to a unit -/

/-- What the last of `n` significant digits counts, at a value: the power of ten below which the
value has `n` digits more. -/
def unit (n : ℕ) (v : ℚ) : ℚ := 10 ^ (Int.log 10 |v| + 1 - n)

/-- A value rounded to `n` significant digits. -/
def IsRounded (n : ℕ) (v q : ℚ) : Prop := ∃ m : ℤ, q = m * unit n v ∧ IsNearest (v / unit n v) m

section

variable {n : ℕ} {v q q' : ℚ}

theorem unit_pos (n : ℕ) (v : ℚ) : 0 < unit n v := zpow_pos (by norm_num) _

/-- The last place does not depend on the sign. -/
theorem unit_neg (n : ℕ) (v : ℚ) : unit n (-v) = unit n v := by rw [unit, unit, abs_neg]

/-- Measured in its unit, a value has as many digits in front of the point as are kept. -/
theorem ten_pow_le_div_unit (hn : 0 < n) (hv : 0 < v) : 10 ^ (n - 1) ≤ v / unit n v := by
  have hlog : (10 : ℚ) ^ Int.log 10 v ≤ v := by
    exact_mod_cast Int.zpow_log_le_self (b := 10) (by norm_num) hv
  rw [le_div_iff₀ (unit_pos n v), unit, abs_of_pos hv, ← zpow_natCast, ← zpow_add₀ (by norm_num)]
  rwa [show ((n - 1 : ℕ) : ℤ) + (Int.log 10 v + 1 - n) = Int.log 10 v by omega]

/-- Rounding to a number of digits does not depend on the sign. -/
theorem IsRounded.neg (h : IsRounded n v q) : IsRounded n (-v) (-q) := by
  obtain ⟨m, rfl, hm⟩ := h
  refine ⟨-m, ?_, ?_⟩
  · rw [unit_neg, Int.cast_neg, neg_mul]
  · rw [unit_neg, neg_div]
    exact hm.neg

/-- There is only one way to round. -/
theorem IsRounded.unique (h : IsRounded n v q) (h' : IsRounded n v q') : q = q' := by
  obtain ⟨m, rfl, hm⟩ := h
  obtain ⟨k, rfl, hk⟩ := h'
  rw [hm.unique hk]

/-- A multiple of its own unit is rounded to itself. -/
theorem isRounded_of_multiple {z : ℤ} (h : v = z * unit n v) : IsRounded n v v := by
  refine ⟨z, h, ?_⟩
  have hquotient : v / unit n v = z := by
    rw [div_eq_iff (unit_pos n v).ne']
    exact h
  rw [hquotient]
  exact isNearest_intCast z

/-- Zero is rounded to itself. -/
theorem isRounded_zero (n : ℕ) : IsRounded n 0 0 :=
  isRounded_of_multiple (z := 0) (by rw [Int.cast_zero, zero_mul])

/-- Whole numbers with no more than `n` digits have them all. -/
theorem isRounded_intCast {z : ℤ} (h : |z| < 10 ^ n) : IsRounded n z z := by
  obtain rfl | hz := eq_or_ne z 0
  · rw [Int.cast_zero]
    exact isRounded_zero n
  have hpos : (0 : ℚ) < |(z : ℚ)| := abs_pos.2 (Int.cast_ne_zero.2 hz)
  have hlog : Int.log 10 |(z : ℚ)| < n := by
    refine (Int.lt_zpow_iff_log_lt (by norm_num) hpos).1 ?_
    rw [zpow_natCast]
    exact_mod_cast h
  obtain ⟨k, hk⟩ : ∃ k : ℕ, Int.log 10 |(z : ℚ)| + 1 - n = -k :=
    ⟨(n - (Int.log 10 |(z : ℚ)| + 1)).toNat, by omega⟩
  refine isRounded_of_multiple (z := z * 10 ^ k) ?_
  rw [unit, hk, zpow_neg, zpow_natCast]
  push_cast
  rw [mul_inv_cancel_right₀ (by positivity)]

end

/-! ## The rounded quotient -/

section

variable {a b c : ℕ}

/-- A rounded quotient is no more than a half away. -/
theorem abs_sub_roundDiv_le (a : ℕ) (hb : 0 < b) : |(a / b : ℚ) - roundDiv a b| ≤ 1 / 2 := by
  have hb' : (0 : ℚ) < b := by exact_mod_cast hb
  obtain ⟨hle, hge⟩ := roundDiv_near a hb
  have hle' : 2 * (a : ℚ) ≤ 2 * b * roundDiv a b + b := by exact_mod_cast hle
  have hge' : 2 * (b : ℚ) * roundDiv a b ≤ 2 * a + b := by exact_mod_cast hge
  rw [abs_le]
  constructor
  · rw [le_sub_iff_add_le, le_div_iff₀ hb']
    linarith
  · rw [sub_le_iff_le_add, div_le_iff₀ hb']
    linarith

/-- Where the quotient lies halfway, the remainder is half of the divisor. -/
theorem roundDiv_even (hb : 0 < b) (h : |(a / b : ℚ) - roundDiv a b| = 1 / 2) :
    Even (roundDiv a b) := by
  have hb' : (b : ℚ) ≠ 0 := by exact_mod_cast hb.ne'
  have htie : 2 * a = 2 * b * roundDiv a b + b ∨ 2 * b * roundDiv a b = 2 * a + b := by
    rcases (abs_eq (by norm_num)).1 h with h | h
    · left
      rw [sub_eq_iff_eq_add, div_eq_iff hb'] at h
      have hq : (2 * a : ℚ) = 2 * b * roundDiv a b + b := by linarith
      exact_mod_cast hq
    · right
      rw [sub_eq_iff_eq_add, div_eq_iff hb'] at h
      have hq : (2 * b * roundDiv a b : ℚ) = 2 * a + b := by linarith
      exact_mod_cast hq
  refine Nat.even_iff.2 (roundDiv_tie_even ?_)
  have hd := Nat.div_add_mod a b
  have hm := Nat.mod_lt a hb
  simp only [roundDiv] at htie
  generalize a / b = q at *
  generalize a % b = r at *
  subst hd
  have hq : 2 * b * q = 2 * (b * q) := Nat.mul_assoc ..
  have hs : 2 * b * (q + 1) = 2 * (b * q) + 2 * b := by rw [Nat.mul_add, hq, Nat.mul_one]
  split at htie <;> omega

/-- A rounded quotient is the nearest integer. -/
theorem isNearest_roundDiv (a : ℕ) (hb : 0 < b) : IsNearest (a / b) (roundDiv a b) := by
  refine isNearest_of_le_half ?_ ?_
  · rw [Int.cast_natCast]
    exact abs_sub_roundDiv_le a hb
  · rw [Int.cast_natCast, Int.even_coe_nat]
    exact roundDiv_even hb

/-- Rounding does not go below a whole number. -/
theorem le_roundDiv (hb : 0 < b) (h : (c : ℚ) ≤ a / b) : c ≤ roundDiv a b := by
  have hnear := (abs_le.1 (abs_sub_roundDiv_le a hb)).2
  have hlt : (c : ℚ) < (roundDiv a b + 1 : ℕ) := by
    push_cast
    linarith
  exact Nat.le_of_lt_succ (by exact_mod_cast hlt)

end

/-! ## Decades -/

/-- A number has at least as many digits as a power of ten that it reaches. -/
theorem lt_digitCount_iff {k n : ℕ} (hn : 0 < n) : k < digitCount n ↔ 10 ^ k ≤ n := by
  obtain rfl | hk := Nat.eq_zero_or_pos k
  · exact iff_of_true Nat.length_toDigits_pos hn
  · rw [← not_iff_not, not_lt, not_le, digitCount, Nat.length_toDigits_le_iff (by norm_num) hk]

theorem digitCount_pos (n : ℕ) : 0 < digitCount n := Nat.length_toDigits_pos

/-- A number from `10 ^ (k - 1)` on has at least `k` digits. -/
theorem le_digitCount {k n : ℕ} (h : 10 ^ (k - 1) ≤ n) : k ≤ digitCount n := by
  have hn : 0 < n := (Nat.pow_pos (by norm_num)).trans_le h
  have hlt := (lt_digitCount_iff hn).2 h
  omega

/-- A quotient lies between the powers of ten that its digits in front of the point tell. -/
theorem ten_pow_digitCount {a b : ℕ} (hb : 0 < b) (h : b ≤ a) :
    b * 10 ^ (digitCount (a / b) - 1) ≤ a ∧ a < b * 10 ^ digitCount (a / b) := by
  have hpos : 0 < a / b := Nat.div_pos h hb
  have hdigits := digitCount_pos (a / b)
  have hle : 10 ^ (digitCount (a / b) - 1) ≤ a / b := (lt_digitCount_iff hpos).1 (by omega)
  have hlt : a / b < 10 ^ digitCount (a / b) :=
    not_le.1 fun h => lt_irrefl _ ((lt_digitCount_iff hpos).2 h)
  rw [Nat.le_div_iff_mul_le hb] at hle
  rw [Nat.div_lt_iff_lt_mul hb] at hlt
  exact ⟨by rwa [mul_comm], by rwa [mul_comm]⟩

section

variable {num den : ℕ}

/-- The logarithm is the power of ten that a value lies above. -/
theorem log_eq_of_bounds {v : ℚ} (hv : 0 < v) {k : ℤ} (hle : 10 ^ k ≤ v) (hlt : v < 10 ^ (k + 1)) :
    Int.log 10 v = k := by
  have hle' := (Int.zpow_le_iff_le_log (b := 10) (by norm_num) hv).1 (by exact_mod_cast hle)
  have hlt' := (Int.lt_zpow_iff_log_lt (b := 10) (by norm_num) hv).1 (by exact_mod_cast hlt)
  omega

/-- Whether a quotient reaches a power of ten is decided without division. -/
theorem ten_zpow_le_div_iff (hden : 0 < den) (k : ℕ) :
    (10 : ℚ) ^ (k : ℤ) ≤ num / den ↔ den * 10 ^ k ≤ num := by
  rw [zpow_natCast, le_div_iff₀ (by exact_mod_cast hden), mul_comm]
  exact_mod_cast Iff.rfl

/-- Whether a quotient reaches a negative power of ten is decided without division. -/
theorem ten_zpow_neg_le_div_iff (hden : 0 < den) (k : ℕ) :
    (10 : ℚ) ^ (-(k : ℤ)) ≤ num / den ↔ den ≤ num * 10 ^ k := by
  rw [zpow_neg, zpow_natCast, inv_le_iff_one_le_mul₀ (by positivity), div_mul_eq_mul_div,
    le_div_iff₀ (by exact_mod_cast hden), one_mul]
  exact_mod_cast Iff.rfl

/-- The decade of a quotient is its logarithm, rounded down. -/
theorem decade_eq (hnum : 0 < num) (hden : 0 < den) :
    decade num den = Int.log 10 (num / den : ℚ) := by
  have hpos : (0 : ℚ) < num / den := by positivity
  symm
  by_cases hle : den ≤ num
  · obtain ⟨hlow, hhigh⟩ := ten_pow_digitCount hden hle
    obtain ⟨k, hk⟩ := Nat.exists_eq_succ_of_ne_zero (digitCount_pos (num / den)).ne'
    rw [hk, Nat.succ_sub_one] at hlow
    rw [hk] at hhigh
    rw [decade, if_pos hle, hk, Nat.cast_succ, add_sub_cancel_right]
    refine log_eq_of_bounds hpos ((ten_zpow_le_div_iff hden k).2 hlow) ?_
    rw [← Nat.cast_succ, ← not_le, ten_zpow_le_div_iff hden]
    exact not_le.2 hhigh
  · obtain ⟨hlow, hhigh⟩ := ten_pow_digitCount hnum (Nat.le_of_not_le hle)
    obtain ⟨k, hk⟩ := Nat.exists_eq_succ_of_ne_zero (digitCount_pos (den / num)).ne'
    rw [hk, Nat.succ_sub_one] at hlow
    rw [hk] at hhigh
    have hexponent : -((k + 1 : ℕ) : ℤ) + 1 = -k := by omega
    simp only [decade, if_neg hle, hk, Nat.succ_sub_one]
    split_ifs with hexact
    · have hvalue : (num / den : ℚ) = (10 : ℕ) ^ (-(k : ℤ)) := by
        have hden' : (den : ℚ) = num * 10 ^ k := by exact_mod_cast hexact
        rw [hden', zpow_neg, zpow_natCast, Nat.cast_ofNat]
        field_simp
      rw [hvalue, Int.log_zpow (by norm_num)]
      omega
    · refine log_eq_of_bounds hpos ((ten_zpow_neg_le_div_iff hden (k + 1)).2 hhigh.le) ?_
      rw [hexponent, ← not_le, ten_zpow_neg_le_div_iff hden]
      exact not_le.2 (lt_of_le_of_ne hlow (Ne.symm hexact))

end

/-! ## Significant digits -/

/-- A zero at the end of a mantissa goes into the exponent. -/
theorem toRat_ten_mul (m : ℕ) (e : ℤ) : toRat ⟨10 * m, e⟩ = toRat ⟨m, e + 1⟩ := by
  rw [toRat, toRat, zpow_add₀ (by norm_num), zpow_one]
  push_cast
  ring

section

variable {n num den : ℕ}

/-- The quotient in multiples of a power of ten is a quotient of whole numbers again. -/
theorem exists_scaled (num : ℕ) (hden : 0 < den) (e : ℤ) :
    ∃ a b : ℕ, 0 < b ∧ (num / den : ℚ) / 10 ^ e = a / b ∧
      (if 0 ≤ e then roundDiv num (den * Nat.pow 10 e.toNat)
        else roundDiv (num * Nat.pow 10 (-e).toNat) den) = roundDiv a b := by
  split_ifs with h
  · obtain ⟨k, rfl⟩ := Int.eq_ofNat_of_zero_le h
    refine ⟨num, den * 10 ^ k, by positivity, ?_, rfl⟩
    rw [zpow_natCast, div_div]
    push_cast
    rfl
  · obtain ⟨k, rfl⟩ : ∃ k : ℕ, e = -k := ⟨(-e).toNat, by omega⟩
    refine ⟨num * 10 ^ k, den, hden, ?_, by rw [neg_neg]; rfl⟩
    rw [zpow_neg, zpow_natCast, div_inv_eq_mul, div_mul_eq_mul_div]
    push_cast
    rfl

/-- A quotient is rounded to the digits that are kept, and all of them are there. -/
theorem significant_spec (hn : 0 < n) (hnum : 0 < num) (hden : 0 < den) :
    IsRounded n (num / den) (significant n num den).toRat ∧
      n ≤ digitCount (significant n num den).mantissa := by
  have hpos : (0 : ℚ) < num / den := by positivity
  obtain ⟨a, b, hb, hvalue, hround⟩ := exists_scaled num hden (decade num den + 1 - n)
  have hunit : unit n (num / den) = 10 ^ (decade num den + 1 - n) := by
    rw [unit, abs_of_pos hpos, decade_eq hnum hden]
  have hlow : 10 ^ (n - 1) ≤ roundDiv a b := by
    have hle := ten_pow_le_div_unit hn hpos
    rw [hunit, hvalue] at hle
    exact le_roundDiv hb (by exact_mod_cast hle)
  have hnearest : IsRounded n (num / den) (toRat ⟨roundDiv a b, decade num den + 1 - n⟩) := by
    refine ⟨roundDiv a b, ?_, ?_⟩
    · rw [hunit, toRat, Int.cast_natCast]
    · rw [hunit, hvalue]
      exact isNearest_roundDiv a hb
  simp only [significant, hround]
  split_ifs with hcarry
  -- One digit too many is only a power of ten, and its last zero goes into the exponent.
  · refine ⟨?_, le_digitCount le_rfl⟩
    have hpow : 10 * Nat.pow 10 (n - 1) = Nat.pow 10 n := mul_pow_sub_one hn.ne' 10
    rwa [← toRat_ten_mul, hpow, ← hcarry]
  · exact ⟨hnearest, le_digitCount hlow⟩

end

end QueryStats.Decimal
