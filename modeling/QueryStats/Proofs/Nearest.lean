import QueryStats.Proofs.Finite

/-!
# The double nearest to a value

What it means to round a value that is not negative: no double is nearer, of two that are equally
near the even one is taken, and a value that is too large becomes infinite.  Products and quotients
of doubles are rounded so.  There is only one such double, for between two that are both nearest and
both even another one would be nearer still.
-/

namespace QueryStats.Double

open Float.Model UnpackedFloat

/-- The last bit of the mantissa is zero. -/
def IsEven : UnpackedFloat → Prop
  | .finite _ m _ _ => m % 2 = 0
  | _ => True

/-- Neither negative nor NaN; of the zeros only the positive one. -/
def IsPlus : UnpackedFloat → Prop
  | .finite .positive _ _ _ | .zero .positive | .infinity .positive => True
  | _ => False

/-- The double that is nearest to a value, and the even one of two that are equally near; exponents
have no upper limit here. -/
structure Nearest (v : ℚ) (u : UnpackedFloat) : Prop where
  canonical : Canonical u
  plus : IsPlus u
  le (w : UnpackedFloat) : Canonical w → |v - value u| ≤ |v - value w|
  even (w : UnpackedFloat) : Canonical w → value w ≠ value u → |v - value w| = |v - value u| →
    IsEven u

/-! ## Rounding to the nearest integer -/

section

variable {em : ExtendedMantissa} {w : ℚ} {t : ℤ}

/-- A rounded mantissa is no more than a half away, and even if it is a half away. -/
theorem Reads.rounded_near (h : Reads em w) :
    |w - em.roundedMantissa| < 1 / 2 ∨
      |w - em.roundedMantissa| = 1 / 2 ∧ em.roundedMantissa % 2 = 0 := by
  obtain ⟨m, _ | _, _ | _⟩ := em <;>
    simp only [Reads, ExtendedMantissa.roundedMantissa, ExtendedMantissa.accuracy,
      Accuracy.roundToNearestEven] at h ⊢
  · left
    rw [h, sub_self, abs_zero]
    norm_num
  · left
    rw [abs_of_pos (by linarith)]
    linarith
  · right
    obtain hm | hm := Nat.mod_two_eq_zero_or_one m <;> rw [hm, h] <;> push_cast
    · exact ⟨by norm_num, by omega⟩
    · exact ⟨by norm_num, by omega⟩
  · left
    push_cast
    rw [abs_of_neg (by linarith)]
    linarith

/-- Of the integers no other is nearer, and if one is as near then the rounded mantissa is even. -/
theorem Reads.rounded_nearest (h : Reads em w) (n : ℤ) :
    |w - em.roundedMantissa| ≤ |w - n| ∧
      ((n : ℚ) ≠ em.roundedMantissa → |w - n| = |w - em.roundedMantissa| →
        em.roundedMantissa % 2 = 0) := by
  have hnear := h.rounded_near
  generalize em.roundedMantissa = r at *
  by_cases hn : (n : ℚ) = r
  · exact ⟨by rw [hn], fun hne => absurd hn hne⟩
  -- Another integer is at least one away from the rounded mantissa.
  have hone : (1 : ℚ) ≤ |w - n| + |w - r| := by
    have hne : n - r ≠ 0 := fun h => hn (by exact_mod_cast sub_eq_zero.1 h)
    calc (1 : ℚ)
      _ ≤ |(n : ℚ) - r| := by exact_mod_cast Int.one_le_abs hne
      _ = |(w - r) - (w - n)| := by ring_nf
      _ ≤ |w - r| + |w - n| := abs_sub _ _
      _ = |w - n| + |w - r| := add_comm _ _
  obtain hlt | ⟨heq, heven⟩ := hnear
  · exact ⟨by linarith, fun _ htie => absurd htie (by linarith)⟩
  · exact ⟨by linarith, fun _ _ => heven⟩

/-! ## Rounding to the nearest double -/

/-- At a lower exponent there are only small values, unless all exponents are higher. -/
theorem Canonical.multiple_or_small {u : UnpackedFloat} (h : Canonical u) :
    (∃ n : ℤ, value u = n * 2 ^ t) ∨ t ≠ -1074 ∧ |value u| < 2 ^ 52 * 2 ^ t := by
  cases u with
  | infinity | notANumber => exact h.elim
  | zero s => exact .inl ⟨0, by simp [value]⟩
  | finite s m e hm =>
    obtain hte | het := le_or_gt t e
    · exact .inl ⟨_, value_decreased s m e hm hte⟩
    · obtain ⟨hm53, hleast, -⟩ := h
      refine .inr ⟨by omega, ?_⟩
      have hlt := abs_value_finite_lt (s := s) (h := hm) hm53 (show e ≤ t - 1 by omega)
      rwa [two_pow_mul_zpow, show ((52 : ℕ) : ℤ) + t = t - 1 + 53 by omega]

/-- A rounded mantissa that is not negative is kept with its value. -/
theorem value_settle_positive {m : ℕ} (hm : m ≤ 2 ^ 53) (ht : -1074 ≤ t) :
    value (settle .positive m t) = m * 2 ^ t := by
  rw [← abs_value_settle (s := .positive) hm ht, abs_of_nonneg]
  rw [settle]
  split
  case isTrue => exact le_refl _
  case isFalse => simp only [value, Sign.apply]; positivity

/-- No sign appears with a mantissa that had none. -/
theorem isPlus_settle (m : ℕ) (t : ℤ) : IsPlus (settle .positive m t) := by
  rw [settle]
  split <;> trivial

/-- An even mantissa stays even, and so does the one that overflows. -/
theorem isEven_settle {s : Sign} {m : ℕ} (hm : m ≤ 2 ^ 53) (ht : -1074 ≤ t) (heven : m % 2 = 0) :
    IsEven (settle s m t) := by
  obtain hlt | rfl := Nat.lt_or_eq_of_le hm
  · rw [settle_of_lt s hlt ht]
    split
    case isTrue => trivial
    case isFalse => exact heven
  · rw [settle_two_pow s ht]
    exact (rfl : 2 ^ 52 % 2 = 0)

/-- An aligned mantissa is rounded to the double nearest to what it reads. -/
theorem Aligned.nearest (h : Aligned w t) (hr : Reads em w) :
    Nearest (w * 2 ^ t) (settle .positive em.roundedMantissa t) := by
  have hpos : (0 : ℚ) < 2 ^ t := by positivity
  have hle := h.rounded_le hr
  have hdist : ∀ r : ℚ, |w * 2 ^ t - r * 2 ^ t| = |w - r| * 2 ^ t := fun r => by
    rw [← sub_mul, abs_mul, abs_of_pos hpos]
  -- What is no multiple of the unit is farther away than the least full mantissa.
  have hsmall : ∀ y : ℚ, t ≠ -1074 → |y| < 2 ^ 52 * 2 ^ t →
      |w - em.roundedMantissa| * 2 ^ t < |w * 2 ^ t - y| := by
    intro y ht hy
    have hfull : 2 ^ 52 ≤ w := h.full.resolve_left ht
    have hnear := (hr.rounded_nearest (2 ^ 52)).1
    rw [Int.cast_pow, Int.cast_ofNat, abs_of_nonneg (sub_nonneg.2 hfull)] at hnear
    calc |w - em.roundedMantissa| * 2 ^ t
      _ ≤ (w - 2 ^ 52) * 2 ^ t := by gcongr
      _ = w * 2 ^ t - 2 ^ 52 * 2 ^ t := sub_mul _ _ _
      _ < w * 2 ^ t - y := by linarith [le_abs_self y]
      _ ≤ |w * 2 ^ t - y| := le_abs_self _
  refine ⟨canonical_settle hle h.least ?_, isPlus_settle _ _, fun u hu => ?_,
    fun u hu hne htie => ?_⟩
  · refine h.full.symm.imp_left fun hfull => hr.le_rounded ?_
    push_cast
    exact hfull
  · rw [value_settle_positive hle h.least, hdist]
    obtain ⟨n, hn⟩ | ⟨ht, hu⟩ := hu.multiple_or_small (t := t)
    · rw [hn, hdist]
      exact mul_le_mul_of_nonneg_right (hr.rounded_nearest n).1 hpos.le
    · exact (hsmall _ ht hu).le
  · rw [value_settle_positive hle h.least] at hne htie
    rw [hdist] at htie
    obtain ⟨n, hn⟩ | ⟨ht, hu⟩ := hu.multiple_or_small (t := t)
    · rw [hn, hdist] at htie
      rw [hn] at hne
      refine isEven_settle hle h.least ((hr.rounded_nearest n).2 (fun h => hne (by rw [h])) ?_)
      exact mul_right_cancel₀ (ne_of_gt hpos) htie
    · exact absurd htie (hsmall _ ht hu).ne'

end

/-- The general rounding of a mantissa yields the nearest double. -/
theorem nearest_roundWithAccuracy {m : ℕ} {e : ℤ} {acc : Accuracy} {v : ℚ}
    (h : Reads (.ofMantissaAndAccuracy m acc) v) (he : e ≤ target m e) :
    Nearest (v * 2 ^ e) (roundWithAccuracy Format.binary64 .positive m e acc) := by
  obtain ⟨w, t, em, hw, hr, hvalue, heq⟩ := exists_aligned .positive h he
  rw [heq, ← hvalue]
  exact hw.nearest hr

/-- Nothing up to half the least positive double is nearer to it than to zero. -/
theorem nearest_zero {v : ℚ} (h : 0 ≤ v) (hv : v ≤ 2 ^ (-1075 : ℤ)) :
    Nearest v (.zero .positive) := by
  refine ⟨trivial, trivial, fun u hu => ?_, fun _ _ _ _ => trivial⟩
  have hhalf : (2 : ℚ) ^ (-1074 : ℤ) = 2 * 2 ^ (-1075 : ℤ) := by
    rw [← zpow_one_add₀ (by norm_num)]
    rfl
  have hzero : value (.zero .positive) = 0 := rfl
  rw [hzero, sub_zero, abs_of_nonneg h]
  obtain ⟨n, hn⟩ | ⟨hne, -⟩ := hu.multiple_or_small (t := -1074)
  · by_cases hn0 : n = 0
    · rw [hn, hn0, Int.cast_zero, zero_mul, sub_zero, abs_of_nonneg h]
    · have hone : (1 : ℚ) ≤ |(n : ℚ)| := by exact_mod_cast Int.one_le_abs hn0
      have hpos : (0 : ℚ) < 2 ^ (-1075 : ℤ) := by positivity
      have hfar : 2 * 2 ^ (-1075 : ℤ) ≤ |(n : ℚ) * 2 ^ (-1074 : ℤ)| := by
        rw [abs_mul, hhalf, abs_of_pos (show (0 : ℚ) < 2 * 2 ^ (-1075 : ℤ) by positivity)]
        exact le_mul_of_one_le_left (by positivity) hone
      have htriangle := abs_sub_abs_le_abs_sub ((n : ℚ) * 2 ^ (-1074 : ℤ)) v
      rw [abs_of_nonneg h, abs_sub_comm] at htriangle
      rw [hn]
      linarith
  · exact absurd rfl hne

section

variable {m m' : ℕ} {e e' : ℤ} (h : 0 < m) (h' : 0 < m')

/-- Products are rounded to the nearest double. -/
theorem nearest_mul (he : e + e' ≤ target (m * m') (e + e')) :
    Nearest ((m * 2 ^ e) * (m' * 2 ^ e'))
      (UnpackedFloat.mul Format.binary64 (.finite .positive m e h)
        (.finite .positive m' e' h')) := by
  have hr : Reads (.ofMantissaAndAccuracy (m * m') .exact) (m * m' : ℕ) := rfl
  have hvalue : (m * 2 ^ e) * (m' * 2 ^ e') = ((m * m' : ℕ) : ℚ) * 2 ^ (e + e') := by
    rw [zpow_add₀ (by norm_num)]
    push_cast
    ring
  rw [hvalue]
  exact nearest_roundWithAccuracy hr he

/-- Quotients are rounded to the nearest double. -/
theorem nearest_div : Nearest ((m * 2 ^ e) / (m' * 2 ^ e'))
    (UnpackedFloat.div Format.binary64 (.finite .positive m e h) (.finite .positive m' e' h')) := by
  obtain ⟨n, t, acc, v, hr, ht, hvalue, heq⟩ := exists_div .positive .positive e e' h h'
  rw [heq, ← hvalue]
  exact nearest_roundWithAccuracy hr ht

end

/-! ## Doubles by mantissa and exponent -/

/-- A mantissa and an exponent of a double, but for an upper limit of the exponent; zero is written
with the least exponent. -/
def Grid (m : ℕ) (e : ℤ) : Prop := m < 2 ^ 53 ∧ -1074 ≤ e ∧ (2 ^ 52 ≤ m ∨ e = -1074)

section

variable {u w : UnpackedFloat} {m m' : ℕ} {e e' : ℤ}

/-- Everything at a lower exponent is smaller. -/
theorem Grid.full_le (h : Grid m' e') (hleast : -1074 ≤ e) (he : e < e') :
    (2 : ℚ) ^ 53 * 2 ^ e ≤ m' * 2 ^ e' := by
  have hfull : 2 ^ 52 ≤ m' := h.2.2.resolve_right (by omega)
  calc (2 : ℚ) ^ 53 * 2 ^ e
    _ = 2 ^ (53 + e) := two_pow_mul_zpow 53 e
    _ ≤ 2 ^ (52 + e') := two_zpow_le (by omega)
    _ = 2 ^ 52 * 2 ^ e' := (two_pow_mul_zpow 52 e').symm
    _ ≤ m' * 2 ^ e' := by gcongr; exact_mod_cast hfull

/-- At its exponent a double is less than the first value whose mantissa is too long. -/
theorem Grid.lt_full (h : Grid m e) : (m : ℚ) * 2 ^ e < 2 ^ 53 * 2 ^ e := by
  have hm : (m : ℚ) < 2 ^ 53 := by exact_mod_cast h.1
  gcongr

/-- A value has one mantissa and one exponent. -/
theorem Grid.unique (h : Grid m e) (h' : Grid m' e') (heq : (m : ℚ) * 2 ^ e = m' * 2 ^ e') :
    m = m' ∧ e = e' := by
  obtain hlt | rfl | hgt := lt_trichotomy e e'
  · exact absurd heq (h.lt_full.trans_le (h'.full_le h.2.1 hlt)).ne
  · exact ⟨by exact_mod_cast mul_right_cancel₀ (by positivity) heq, rfl⟩
  · exact absurd heq (h'.lt_full.trans_le (h.full_le h'.2.1 hgt)).ne'

/-- A double without a minus is told by its place on the grid. -/
theorem Canonical.exists_grid (hu : Canonical u) (hplus : IsPlus u) :
    ∃ m e, Grid m e ∧ value u = m * 2 ^ e ∧ (IsEven u ↔ m % 2 = 0) ∧
      u = if h : m = 0 then .zero .positive else .finite .positive m e (Nat.pos_of_ne_zero h) := by
  cases u with
  | infinity | notANumber => exact hu.elim
  | zero s =>
    cases s with
    | negative => exact hplus.elim
    | positive =>
      exact ⟨0, -1074, ⟨by decide, le_refl _, .inr rfl⟩, by simp [value], by simp [IsEven], rfl⟩
  | finite s m e hm =>
    cases s with
    | negative => exact hplus.elim
    | positive =>
      exact ⟨m, e, hu, by simp [value, Sign.apply], Iff.rfl, by rw [dif_neg (Nat.ne_of_gt hm)]⟩

/-- What is not negative has no negative value. -/
theorem value_nonneg (hu : Canonical u) (hplus : IsPlus u) : 0 ≤ value u := by
  obtain ⟨m, e, -, hvalue, -⟩ := hu.exists_grid hplus
  rw [hvalue]
  positivity

/-- Doubles that are not negative are told apart by their values. -/
theorem eq_of_value_eq (hu : Canonical u) (hw : Canonical w) (hu' : IsPlus u) (hw' : IsPlus w)
    (h : value u = value w) : u = w := by
  obtain ⟨m, e, hgrid, hvalue, -, hueq⟩ := hu.exists_grid hu'
  obtain ⟨m', e', hgrid', hvalue', -, hweq⟩ := hw.exists_grid hw'
  rw [hvalue, hvalue'] at h
  obtain ⟨rfl, rfl⟩ := hgrid.unique hgrid' h
  rw [hueq, hweq]

/-- Between two even doubles there is an odd one. -/
theorem exists_between (hu : Canonical u) (hw : Canonical w) (hu' : IsPlus u) (hw' : IsPlus w)
    (hue : IsEven u) (hwe : IsEven w) (h : value u < value w) :
    ∃ x, Canonical x ∧ value u < value x ∧ value x < value w := by
  obtain ⟨m, e, hgrid, hvalue, hiff, -⟩ := hu.exists_grid hu'
  obtain ⟨m', e', hgrid', hvalue', hiff', -⟩ := hw.exists_grid hw'
  rw [hiff] at hue
  rw [hiff'] at hwe
  rw [hvalue, hvalue'] at h ⊢
  have hm : m < 2 ^ 53 := hgrid.1
  have hle : m + 1 ≤ 2 ^ 53 := hm
  have hpos : (0 : ℚ) < 2 ^ e := by positivity
  refine ⟨settle .positive (m + 1) e, canonical_settle hle hgrid.2.1 ?_, ?_, ?_⟩
  · exact hgrid.2.2.imp_left fun h => Nat.le_succ_of_le h
  · rw [value_settle_positive hle hgrid.2.1]
    push_cast
    linarith
  · rw [value_settle_positive hle hgrid.2.1]
    obtain hlt | rfl | hgt := lt_trichotomy e e'
    · have hodd : ((m + 1 : ℕ) : ℚ) < 2 ^ 53 := by
        exact_mod_cast (show m + 1 < 2 ^ 53 by omega)
      calc ((m + 1 : ℕ) : ℚ) * 2 ^ e
        _ < 2 ^ 53 * 2 ^ e := by gcongr
        _ ≤ m' * 2 ^ e' := hgrid'.full_le hgrid.2.1 hlt
    · have hlt : m < m' := by exact_mod_cast lt_of_mul_lt_mul_right h hpos.le
      have hlt' : ((m + 1 : ℕ) : ℚ) < m' := by exact_mod_cast (show m + 1 < m' by omega)
      gcongr
    · exact absurd h (not_lt.2 (hgrid'.lt_full.trans_le (hgrid.full_le hgrid'.2.1 hgt)).le)

end

/-! ## The range of doubles -/

/-- Halfway between the largest double and the power of two above it. -/
def overflow : ℚ := 2 ^ 1024 - 2 ^ 970

/-- The overflow bound lies half a unit of the largest doubles below `2 ^ 1024`. -/
theorem two_zpow_1024 : (2 : ℚ) ^ (1024 : ℤ) = overflow + 2 ^ (970 : ℤ) := by
  rw [overflow]
  exact (sub_add_cancel _ _).symm

theorem two_zpow_971 : (2 : ℚ) ^ (971 : ℤ) = 2 * 2 ^ (970 : ℤ) := by
  rw [← zpow_one_add₀ (by norm_num)]
  rfl

section

variable {u : UnpackedFloat} {v : ℚ} {m : ℕ} {e : ℤ}

/-- Below `2 ^ 1024` the exponent is at most 971. -/
theorem Grid.exponent_le (h : Grid m e) (hlt : (m : ℚ) * 2 ^ e < 2 ^ (1024 : ℤ)) : e ≤ 971 := by
  by_contra hgt
  have hfull := h.full_le (e := 971) (by decide) (by omega)
  have hpow := two_pow_mul_zpow 53 971
  rw [hpow] at hfull
  exact absurd hlt (not_lt.2 hfull)

/-- The largest double lies half a unit below the overflow bound. -/
theorem largest_mul : ((2 ^ 53 - 1 : ℕ) : ℚ) * 2 ^ (971 : ℤ) = overflow - 2 ^ (970 : ℤ) := by
  have hpow : (2 : ℚ) ^ 53 * 2 ^ (971 : ℤ) = 2 ^ (1024 : ℤ) := two_pow_mul_zpow 53 971
  rw [Nat.cast_pred (by decide), Nat.cast_pow, Nat.cast_ofNat, sub_mul, hpow, two_zpow_1024,
    two_zpow_971]
  ring

/-- The largest double has an odd mantissa. -/
theorem Grid.le_largest (h : Grid m e) (hlt : (m : ℚ) * 2 ^ e < 2 ^ (1024 : ℤ)) :
    (m : ℚ) * 2 ^ e < overflow - 2 ^ (970 : ℤ) ∨
      (m : ℚ) * 2 ^ e = overflow - 2 ^ (970 : ℤ) ∧ m = 2 ^ 53 - 1 := by
  have he := h.exponent_le hlt
  have hm : (m : ℚ) ≤ (2 ^ 53 - 1 : ℕ) := by exact_mod_cast Nat.le_pred_of_lt h.1
  have hpos : (0 : ℚ) < 2 ^ e := by positivity
  have hle : (m : ℚ) * 2 ^ e ≤ (2 ^ 53 - 1 : ℕ) * 2 ^ (971 : ℤ) := by
    gcongr
    · norm_num
  rw [← largest_mul]
  refine hle.lt_or_eq.imp_right fun heq => ⟨heq, ?_⟩
  exact (h.unique ⟨by decide, by decide, .inl (by decide)⟩ heq).1

/-- A value from the overflow on is no nearer to a double than to the power of two above them all,
which is even while the largest double is odd. -/
theorem Nearest.lt_overflow (h : Nearest v u) (hlt : value u < 2 ^ (1024 : ℤ)) : v < overflow := by
  obtain ⟨m, e, hgrid, hvalue, heven, -⟩ := h.canonical.exists_grid h.plus
  have habove : Canonical (.finite .positive (2 ^ 52) 972 (by decide)) :=
    ⟨by decide, by decide, .inl (le_refl _)⟩
  have hvalue_above : value (.finite .positive (2 ^ 52) 972 (by decide)) =
      overflow + 2 ^ (970 : ℤ) := by
    rw [← two_zpow_1024]
    exact two_pow_mul_zpow 52 972
  have hle := h.le _ habove
  have htie := h.even _ habove
  rw [hvalue_above] at hle htie
  have hcut := hgrid.le_largest (hvalue ▸ hlt)
  rw [← hvalue] at hcut
  have hpos : (0 : ℚ) < 2 ^ (970 : ℤ) := by positivity
  generalize (2 : ℚ) ^ (970 : ℤ) = half at *
  have hlargest : value u ≤ overflow - half := hcut.elim le_of_lt fun h => h.1.le
  by_contra hge
  rw [not_lt] at hge
  have hdist := le_abs_self (v - value u)
  obtain ⟨habs, -⟩ | ⟨habs, -⟩ := abs_cases (v - (overflow + half))
  · linarith
  obtain hless | ⟨heq, hm⟩ := hcut
  · linarith
  · have hv : v = overflow := by linarith
    have hodd := heven.1 (htie (by linarith) ?_)
    · omega
    · rw [heq, hv, sub_sub_cancel, sub_add_cancel_left, abs_neg]

/-- A value below the overflow is nearer to the largest double than to any power of two above. -/
theorem Nearest.value_lt (h : Nearest v u) (hv : v < overflow) : value u < 2 ^ (1024 : ℤ) := by
  have hlargest := h.le (.finite .positive (2 ^ 53 - 1) 971 (by decide))
    ⟨by decide, by decide, .inl (by decide)⟩
  have hvalue_largest : value (.finite .positive (2 ^ 53 - 1) 971 (by decide)) =
      overflow - 2 ^ (970 : ℤ) := largest_mul
  rw [hvalue_largest] at hlargest
  rw [two_zpow_1024]
  have hpos : (0 : ℚ) < 2 ^ (970 : ℤ) := by positivity
  generalize (2 : ℚ) ^ (970 : ℤ) = half at *
  by_contra hge
  rw [not_lt] at hge
  have hdist := neg_abs_le (v - value u)
  obtain ⟨habs, -⟩ | ⟨habs, -⟩ := abs_cases (v - (overflow - half)) <;> linarith

/-- What reaches `2 ^ 1024` is packed as infinity. -/
theorem pack_of_overflow (hu : Canonical u) (hplus : IsPlus u) (h : 2 ^ (1024 : ℤ) ≤ value u) :
    Float.Model.pack u = .pack (.infinity .positive) := by
  cases u with
  | infinity | notANumber => exact hu.elim
  | zero s =>
    have hpos : (0 : ℚ) < 2 ^ (1024 : ℤ) := by positivity
    exact absurd h (not_le.2 hpos)
  | finite s m e hm =>
    cases s with
    | negative => exact hplus.elim
    | positive =>
      have he : 971 < e := by
        by_contra hle
        have hlt := abs_value_finite_lt (s := .positive) (h := hm) hu.1 (not_lt.1 hle)
        exact absurd (h.trans (le_abs_self _)) (not_le.2 hlt)
      have hbias : Format.binary64.exponentBias = 1023 := rfl
      have hcap : 2 ^ 11 ≤ (e + ((1023 : ℕ) : ℤ) + ((52 : ℕ) : ℤ)).toNat + 1 := by omega
      simp only [Float.Model.pack, UnpackedFloat.pack, hbias, hcap, if_true]

end

/-! ## Values as doubles -/

/-- The double that stands for a value which is not negative: the nearest one, and the even one of
two that are equally near; infinity if the value is too large. -/
structure RoundsTo (v : ℚ) (x : Float) : Prop where
  plus : IsPlus x.toModel.unpack
  isFinite_iff : x.isFinite ↔ v < overflow
  le (y : Float) : x.isFinite → y.isFinite → |v - valueOf x| ≤ |v - valueOf y|
  even (y : Float) : x.isFinite → y.isFinite → valueOf y ≠ valueOf x →
    |v - valueOf y| = |v - valueOf x| → IsEven x.toModel.unpack

section

variable {u : UnpackedFloat} {v : ℚ} {x y : Float}

/-- A double that unpacks canonically is finite. -/
theorem Canonical.isFinite (h : Canonical x.toModel.unpack) : x.isFinite := by
  change x.toModel.unpack.isFinite = true
  cases hu : x.toModel.unpack with
  | infinity | notANumber =>
    rw [hu] at h
    exact h.elim
  | zero | finite => rfl

/-- From the overflow bound on values round to infinity. -/
theorem roundsTo_infinity (h : overflow ≤ v) :
    RoundsTo v (.ofModel (.pack (.infinity .positive))) where
  plus := trivial
  isFinite_iff := ⟨fun hx => Bool.noConfusion hx, fun hv => absurd h (not_le.2 hv)⟩
  le _ hx := Bool.noConfusion hx
  even _ hx := Bool.noConfusion hx

/-- The nearest double stands for the value, packed. -/
theorem Nearest.roundsTo (h : Nearest v u) : RoundsTo v (.ofModel (.pack u)) := by
  obtain hlt | hge := lt_or_ge (value u) (2 ^ (1024 : ℤ))
  · have hnonneg := value_nonneg h.canonical h.plus
    have hu : (Float.ofModel (.pack u)).toModel.unpack = u :=
      unpack_pack h.canonical ((abs_of_nonneg hnonneg).trans_lt hlt)
    have hcanonical : Canonical (Float.ofModel (.pack u)).toModel.unpack := by
      rw [hu]
      exact h.canonical
    refine ⟨?_, iff_of_true hcanonical.isFinite (h.lt_overflow hlt), ?_, ?_⟩
    · rw [hu]
      exact h.plus
    · intro y _ hy
      rw [valueOf, hu]
      exact h.le _ (canonical_unpack hy)
    · intro y _ hy
      rw [valueOf, valueOf, hu]
      exact h.even _ (canonical_unpack hy)
  · rw [pack_of_overflow h.canonical h.plus hge]
    exact roundsTo_infinity (not_lt.1 fun hv => absurd (h.value_lt hv) (not_lt.2 hge))

/-- Two even doubles are not both nearest to a value, since there is another one between them. -/
theorem RoundsTo.not_valueOf_lt (hx : RoundsTo v x) (hy : RoundsTo v y) (hfx : x.isFinite)
    (hfy : y.isFinite) : ¬valueOf x < valueOf y := by
  intro hlt
  have heq : |v - valueOf x| = |v - valueOf y| := le_antisymm (hx.le y hfx hfy) (hy.le x hfy hfx)
  obtain ⟨z, hz, hxz, hzy⟩ := exists_between (canonical_unpack hfx) (canonical_unpack hfy) hx.plus
    hy.plus (hx.even y hfx hfy hlt.ne' heq.symm) (hy.even x hfy hfx hlt.ne heq) hlt
  have hnonneg : 0 ≤ value z := (value_nonneg (canonical_unpack hfx) hx.plus).trans hxz.le
  have hunpack : (Float.ofModel (.pack z)).toModel.unpack = z := by
    refine unpack_pack hz ((abs_of_nonneg hnonneg).trans_lt ?_)
    exact (hzy.trans_le (le_abs_self _)).trans (abs_value_unpack_lt hfy)
  have hfz : (Float.ofModel (.pack z)).isFinite := Canonical.isFinite (by rwa [hunpack])
  have hle := hx.le _ hfx hfz
  have hvalue : valueOf (.ofModel (.pack z)) = value z := by rw [valueOf, hunpack]
  rw [hvalue] at hle
  change valueOf x < value z at hxz
  change value z < valueOf y at hzy
  obtain ⟨hx', hx''⟩ | ⟨hx', hx''⟩ := abs_cases (v - valueOf x) <;>
    obtain ⟨hy', hy''⟩ | ⟨hy', hy''⟩ := abs_cases (v - valueOf y) <;>
    obtain ⟨hz', -⟩ | ⟨hz', -⟩ := abs_cases (v - value z) <;> linarith

/-- A value is rounded to one double only. -/
theorem RoundsTo.unpack_eq (hx : RoundsTo v x) (hy : RoundsTo v y) :
    x.toModel.unpack = y.toModel.unpack := by
  by_cases hv : v < overflow
  · have hfx := hx.isFinite_iff.2 hv
    have hfy := hy.isFinite_iff.2 hv
    refine eq_of_value_eq (canonical_unpack hfx) (canonical_unpack hfy) hx.plus hy.plus ?_
    exact le_antisymm (not_lt.1 (hy.not_valueOf_lt hx hfy hfx))
      (not_lt.1 (hx.not_valueOf_lt hy hfx hfy))
  · have hinfinity : ∀ z : Float, RoundsTo v z → z.toModel.unpack = .infinity .positive := by
      intro z hz
      have hnot : ¬z.toModel.unpack.isFinite := fun h => hv (hz.isFinite_iff.1 h)
      have hplus := hz.plus
      cases hu : z.toModel.unpack with rw [hu] at hnot hplus
      | zero | finite => exact absurd rfl hnot
      | notANumber => exact hplus.elim
      | infinity s =>
        cases s with
        | negative => exact hplus.elim
        | positive => rfl
    rw [hinfinity x hx, hinfinity y hy]

end

end QueryStats.Double
