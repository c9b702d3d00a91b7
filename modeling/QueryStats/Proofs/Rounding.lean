import QueryStats.Proofs.Double

/-!
# Rounding to 53 bits

Rounding shifts a mantissa until it has 53 bits, rounds it to an integer and shifts once more if
that made it longer.  What is kept of the bits that are shifted out is enough to compare the value
with an integer and with a half.  So rounding does not pass a power of two, not even from a little
above it, and it leaves a whole number whole.
-/

namespace QueryStats.Double

open Float.Model UnpackedFloat

/-! ## Mantissas with two further bits -/

/-- The values that a mantissa can stand for.  Of the bits cut off it keeps whether they are all
zero, and how they compare with a half. -/
def Reads (em : ExtendedMantissa) (v : ℚ) : Prop :=
  match em.roundBit, em.stickyBit with
  | false, false => v = em.mantissa
  | false, true => em.mantissa < v ∧ v < em.mantissa + 1 / 2
  | true, false => v = em.mantissa + 1 / 2
  | true, true => em.mantissa + 1 / 2 < v ∧ v < em.mantissa + 1

section

variable {em : ExtendedMantissa} {v : ℚ}

/-- What was cut off is not negative. -/
theorem Reads.mantissa_le (h : Reads em v) : em.mantissa ≤ v := by
  obtain ⟨m, _ | _, _ | _⟩ := em <;> simp only [Reads] at h <;> linarith

/-- What was cut off is less than one. -/
theorem Reads.lt_mantissa (h : Reads em v) : v < em.mantissa + 1 := by
  obtain ⟨m, _ | _, _ | _⟩ := em <;> simp only [Reads] at h <;> linarith

/-- Shifting by one bit reads half the value. -/
theorem Reads.shiftRightOne (h : Reads em v) : Reads em.shiftRightOne (v / 2) := by
  obtain ⟨m, r, s⟩ := em
  have hm : (m : ℚ) = 2 * (m / 2 : ℕ) + (m % 2 : ℕ) := by exact_mod_cast (Nat.div_add_mod m 2).symm
  have hbit : (m % 2 != 0) = decide (m % 2 = 1) := by
    obtain h | h := Nat.mod_two_eq_zero_or_one m <;> rw [h] <;> rfl
  simp only [ExtendedMantissa.shiftRightOne, hbit]
  obtain hodd | hodd := Nat.mod_two_eq_zero_or_one m <;> rw [hodd] at hm ⊢ <;>
    cases r <;> cases s <;> simp only [Reads] at h ⊢ <;> norm_num at hm h ⊢ <;>
    first | linarith | constructor <;> linarith

/-- Shifting by `n` bits divides the value by `2 ^ n`. -/
theorem Reads.shiftRight (h : Reads em v) (n : ℕ) : Reads (em >>> n) (v / 2 ^ n) := by
  change Reads (n.repeat ExtendedMantissa.shiftRightOne em) _
  induction n with
  | zero => simpa [Nat.repeat] using h
  | succ n ih =>
    rw [Nat.repeat, pow_succ, ← div_div]
    exact ih.shiftRightOne

/-- Rounding does not fall below the mantissa. -/
theorem mantissa_le_rounded (em : ExtendedMantissa) : em.mantissa ≤ em.roundedMantissa := by
  obtain ⟨m, _ | _, _ | _⟩ := em <;>
    simp [ExtendedMantissa.roundedMantissa, ExtendedMantissa.accuracy, Accuracy.roundToNearestEven]

/-- Rounding does not fall below an integer that the value reaches. -/
theorem Reads.le_rounded (h : Reads em v) {c : ℕ} (hc : c ≤ v) : c ≤ em.roundedMantissa := by
  have hlt : (c : ℚ) < em.mantissa + 1 := hc.trans_lt h.lt_mantissa
  have hle : c ≤ em.mantissa := Nat.le_of_lt_succ (by exact_mod_cast hlt)
  exact hle.trans (mantissa_le_rounded em)

/-- Rounding does not pass a whole number; nor an even one that it is no more than half away
from. -/
theorem Reads.rounded_le (h : Reads em v) {c : ℕ} (hc : v ≤ c ∨ v ≤ c + 1 / 2 ∧ c % 2 = 0) :
    em.roundedMantissa ≤ c := by
  have hcut : v < (c : ℚ) + 1 := by
    obtain hc | hc := hc <;> linarith
  have hle : em.mantissa ≤ c := Nat.le_of_lt_succ (by exact_mod_cast h.mantissa_le.trans_lt hcut)
  obtain hlt | rfl := Nat.lt_or_eq_of_le hle
  -- Rounding adds one at most, so only a mantissa that is `c` itself can get past `c`.
  · obtain ⟨m, r, s⟩ := em
    cases r <;> cases s <;>
      simp only [ExtendedMantissa.roundedMantissa, ExtendedMantissa.accuracy,
        Accuracy.roundToNearestEven] at hlt ⊢ <;>
      omega
  · obtain ⟨m, _ | _, _ | _⟩ := em <;>
      simp only [Reads, ExtendedMantissa.roundedMantissa, ExtendedMantissa.accuracy,
        Accuracy.roundToNearestEven, Nat.le_refl] at h hc ⊢
    · obtain hc | hc := hc
      · linarith
      · omega
    · obtain hc | hc := hc <;> linarith

end

/-! ## Rounding -/

/-- The value of an unpacked double; infinities and NaN are left at zero. -/
def value : UnpackedFloat → ℚ
  | .finite s m e _ => (s.apply m : ℤ) * 2 ^ e
  | _ => 0

/-- The magnitude of a finite double is its mantissa times its power of two. -/
@[simp] theorem abs_value_finite (s : Sign) (m : ℕ) (e : ℤ) (h : 0 < m) :
    |value (.finite s m e h)| = m * 2 ^ e := by
  have hpos : (0 : ℚ) < 2 ^ e := by positivity
  rw [value, abs_mul, abs_of_pos hpos]
  cases s <;> simp [Sign.apply]

/-- Finite, with a mantissa of 53 bits, or of fewer at the least exponent. -/
def Canonical : UnpackedFloat → Prop
  | .finite _ m e _ => m < 2 ^ 53 ∧ -1074 ≤ e ∧ (2 ^ 52 ≤ m ∨ e = -1074)
  | .zero _ => True
  | .infinity _ | .notANumber => False

/-- The exponent that a mantissa is brought to before it is rounded. -/
def target (m : ℕ) (e : ℤ) : ℤ := max (m.log2 + 1 + e - 53) (-1074)

/-- A mantissa of at least 53 bits is brought to no lower exponent. -/
theorem le_target {m : ℕ} (h : 2 ^ 52 ≤ m) (e : ℤ) : e ≤ target m e := by
  have hlog := (Nat.le_log2 (by omega)).2 h
  rw [target]
  omega

/-- The shift to the target exponent, as a number of bits. -/
theorem shiftToTargetExponent_eq (m : ℕ) (e : ℤ) (acc : Accuracy) :
    shiftToTargetExponent Format.binary64 m e acc =
      (ExtendedMantissa.ofMantissaAndAccuracy m acc >>> (target m e - e).toNat,
        e + (target m e - e).toNat) := rfl

/-- What rounding does to a rounded mantissa. -/
def settle (s : Sign) (m : ℕ) (e : ℤ) : UnpackedFloat :=
  let p := shiftToTargetExponent Format.binary64 m e .exact
  if h : p.1.mantissa = 0 then .zero s
  else .finite s p.1.mantissa p.2 (Nat.pos_of_ne_zero h)

/-- Rounding shifts to the target exponent, rounds the mantissa and shifts again. -/
theorem roundWithAccuracy_eq_settle (s : Sign) {m : ℕ} {e : ℤ} (acc : Accuracy)
    (he : e ≤ target m e) :
    roundWithAccuracy Format.binary64 s m e acc =
      settle s (ExtendedMantissa.ofMantissaAndAccuracy m acc >>>
        (target m e - e).toNat).roundedMantissa (target m e) := by
  have ht : e + (target m e - e).toNat = target m e := by omega
  simp only [roundWithAccuracy, settle, shiftToTargetExponent_eq m e acc, ht]

/-- A mantissa of 53 bits stays as it is. -/
theorem settle_of_lt (s : Sign) {m : ℕ} {e : ℤ} (hm : m < 2 ^ 53) (he : -1074 ≤ e) :
    settle s m e = if h : m = 0 then .zero s else .finite s m e (Nat.pos_of_ne_zero h) := by
  have hl := log2_le_of_lt hm
  have hk : (target m e - e).toNat = 0 := by
    rw [target]
    omega
  simp only [settle, shiftToTargetExponent_eq, hk]
  simp [Nat.repeat, ExtendedMantissa.ofMantissaAndAccuracy, HShiftRight.hShiftRight]

/-- A mantissa that overflowed by rounding moves to the next exponent. -/
theorem settle_two_pow (s : Sign) {e : ℤ} (he : -1074 ≤ e) :
    settle s (2 ^ 53) e = .finite s (2 ^ 52) (e + 1) (by decide) := by
  have hk : (target (2 ^ 53) e - e).toNat = 1 := by
    rw [target, Nat.log2_two_pow]
    omega
  simp only [settle, shiftToTargetExponent_eq, hk]
  rfl

section

variable {s : Sign} {m : ℕ} {e : ℤ}

/-- Settling does not change the magnitude. -/
theorem abs_value_settle (hm : m ≤ 2 ^ 53) (he : -1074 ≤ e) :
    |value (settle s m e)| = m * 2 ^ e := by
  obtain hlt | rfl := Nat.lt_or_eq_of_le hm
  · rw [settle_of_lt s hlt he]
    split
    case isTrue h => simp [h, value]
    case isFalse => exact abs_value_finite ..
  · rw [settle_two_pow s he, abs_value_finite, zpow_add_one₀ (by norm_num)]
    push_cast
    ring

/-- What is settled is canonical. -/
theorem canonical_settle (hm : m ≤ 2 ^ 53) (he : -1074 ≤ e) (hl : 2 ^ 52 ≤ m ∨ e = -1074) :
    Canonical (settle s m e) := by
  obtain hlt | rfl := Nat.lt_or_eq_of_le hm
  · rw [settle_of_lt s hlt he]
    split
    case isTrue => trivial
    case isFalse => exact ⟨hlt, he, hl⟩
  · rw [settle_two_pow s he]
    exact ⟨by decide, by omega, .inl (Nat.le_refl _)⟩

end

/-! ## Bounds kept by rounding -/

/-- A value without a fraction. -/
def IsWhole (v : ℚ) : Prop := ∃ n : ℤ, v = n

/-- Whole numbers add up to a whole number. -/
theorem IsWhole.add {v w : ℚ} (hv : IsWhole v) (hw : IsWhole w) : IsWhole (v + w) := by
  obtain ⟨m, rfl⟩ := hv
  obtain ⟨n, rfl⟩ := hw
  exact ⟨m + n, by push_cast; rfl⟩

/-- Whole numbers differ by a whole number. -/
theorem IsWhole.sub {v w : ℚ} (hv : IsWhole v) (hw : IsWhole w) : IsWhole (v - w) := by
  obtain ⟨m, rfl⟩ := hv
  obtain ⟨n, rfl⟩ := hw
  exact ⟨m - n, by push_cast; rfl⟩

/-- A value is whole if its magnitude is. -/
theorem isWhole_iff_abs {v : ℚ} : IsWhole v ↔ ∃ n : ℕ, |v| = n := by
  constructor
  · rintro ⟨n, rfl⟩
    exact ⟨n.natAbs, by rw [← Int.cast_abs, Int.abs_eq_natAbs, Int.cast_natCast]⟩
  · rintro ⟨n, hn⟩
    obtain h | h := abs_choice v
    · exact ⟨n, by rw [← h, hn]; rfl⟩
    · exact ⟨-n, by rw [← neg_neg v, ← h, hn]; push_cast; rfl⟩

/-- An unpacked double that `v` was rounded to, as far as bounds can tell. -/
structure Rounds (v : ℚ) (u : UnpackedFloat) : Prop where
  canonical : Canonical u
  le (k : ℤ) : -1022 ≤ k → |v| ≤ 2 ^ k + 2 ^ (k - 53) → |value u| ≤ 2 ^ k
  whole : IsWhole v → IsWhole (value u)

/-- Bounds on rounding see the magnitude only. -/
theorem Rounds.of_abs_eq {v w : ℚ} {u : UnpackedFloat} (h : Rounds v u) (hvw : |v| = |w|) :
    Rounds w u where
  canonical := h.canonical
  le := hvw ▸ h.le
  whole hw := h.whole (by rwa [isWhole_iff_abs, hvw, ← isWhole_iff_abs])

theorem two_zpow_le {j k : ℤ} (h : j ≤ k) : (2 : ℚ) ^ j ≤ 2 ^ k :=
  zpow_le_zpow_right₀ (by norm_num) h

theorem two_zpow_lt {j k : ℤ} (h : j < k) : (2 : ℚ) ^ j < 2 ^ k :=
  zpow_lt_zpow_right₀ (by norm_num) h

theorem two_pow_mul_zpow (n : ℕ) (e : ℤ) : (2 : ℚ) ^ n * 2 ^ e = 2 ^ (n + e) := by
  rw [zpow_add₀ (by norm_num), zpow_natCast]

theorem natCast_lt_two_pow_log2_succ (m : ℕ) : (m : ℚ) + 1 ≤ 2 ^ (m.log2 + 1) := by
  exact_mod_cast Nat.lt_log2_self

theorem two_pow_log2_le {m : ℕ} (hm : m ≠ 0) : (2 : ℚ) ^ m.log2 ≤ m := by
  exact_mod_cast Nat.log2_self_le hm

/-- A mantissa as it stands just before it is rounded: `w` is what it reads, in units of the
exponent `t`. -/
structure Aligned (w : ℚ) (t : ℤ) : Prop where
  least : -1074 ≤ t
  lt : w < 2 ^ 53
  full : t = -1074 ∨ 2 ^ 52 ≤ w

/-- At its target exponent a mantissa is ready to be rounded. -/
theorem aligned_target {m : ℕ} {e : ℤ} {acc : Accuracy} {v : ℚ}
    (h : Reads (.ofMantissaAndAccuracy m acc) v) (he : e ≤ target m e) :
    Aligned (v / 2 ^ (target m e - e).toNat) (target m e) := by
  have hmantissa : (ExtendedMantissa.ofMantissaAndAccuracy m acc).mantissa = m := by
    obtain _ | (_ | _ | _) := acc <;> rfl
  have hle := h.mantissa_le
  have hlt := h.lt_mantissa
  rw [hmantissa] at hle hlt
  have hcut := natCast_lt_two_pow_log2_succ m
  obtain ⟨k, hk⟩ : ∃ k : ℕ, target m e = e + k := ⟨(target m e - e).toNat, by omega⟩
  have hk' : (target m e - e).toNat = k := by omega
  rw [hk']
  rw [target] at hk
  refine ⟨by rw [target]; omega, ?_, ?_⟩
  · rw [div_lt_iff₀ (by positivity), ← pow_add]
    have hpow : (2 : ℚ) ^ (m.log2 + 1) ≤ 2 ^ (53 + k) :=
      pow_le_pow_right₀ (by norm_num) (by omega)
    linarith
  · by_cases hmin : target m e = -1074
    · exact .inl hmin
    · refine .inr ?_
      rw [target] at hmin
      have hm : m ≠ 0 := by
        rintro rfl
        rw [Nat.log2_zero] at hk hmin
        omega
      have hlog := two_pow_log2_le hm
      rw [le_div_iff₀ (by positivity), ← pow_add, show 52 + k = m.log2 by omega]
      exact hlog.trans hle

section

variable {s : Sign} {w : ℚ} {t : ℤ} {em : ExtendedMantissa}

/-- A rounded mantissa may overflow, but to a power of two only. -/
theorem Aligned.rounded_le (h : Aligned w t) (hr : Reads em w) : em.roundedMantissa ≤ 2 ^ 53 := by
  refine hr.rounded_le (.inl ?_)
  push_cast
  exact h.lt.le

/-- A value that passes a power of two by no more than half a unit is rounded down to it. -/
theorem Aligned.rounded_mul_le (h : Aligned w t) (hr : Reads em w) {k : ℤ} (hk : -1022 ≤ k)
    (hw : w * 2 ^ t ≤ 2 ^ k + 2 ^ (k - 53)) : em.roundedMantissa * (2 : ℚ) ^ t ≤ 2 ^ k := by
  have hpos : (0 : ℚ) < 2 ^ t := by positivity
  obtain hlow | hhigh := lt_or_ge t (k - 52)
  -- At a low exponent not even the longest mantissa gets past `2 ^ k`.
  · have hR : (em.roundedMantissa : ℚ) ≤ 2 ^ 53 := by exact_mod_cast h.rounded_le hr
    calc (em.roundedMantissa : ℚ) * 2 ^ t
      _ ≤ 2 ^ 53 * 2 ^ t := by gcongr
      _ = 2 ^ (53 + t) := two_pow_mul_zpow 53 t
      _ ≤ 2 ^ k := two_zpow_le (by omega)
  -- A higher one would make the value at least twice as large, since the mantissa is full there.
  · have hexp : k = t + 52 := by
      by_contra hne
      have hfull : 2 ^ 52 ≤ w := h.full.resolve_left (by omega)
      have hlow : (2 : ℚ) * 2 ^ k ≤ w * 2 ^ t := by
        calc (2 : ℚ) * 2 ^ k
          _ = 2 ^ (1 + k) := (zpow_one_add₀ (by norm_num) k).symm
          _ ≤ 2 ^ (52 + t) := two_zpow_le (by omega)
          _ = 2 ^ 52 * 2 ^ t := (two_pow_mul_zpow 52 t).symm
          _ ≤ w * 2 ^ t := by gcongr
      have hless : (2 : ℚ) ^ (k - 53) < 2 ^ k := two_zpow_lt (by omega)
      linarith
    subst hexp
    have hsum : (2 : ℚ) ^ (t + 52) + 2 ^ (t + 52 - 53) = (2 ^ 52 + 1 / 2) * 2 ^ t := by
      rw [show t + 52 - 53 = t - 1 by omega, zpow_add₀ (by norm_num), zpow_sub_one₀ (by norm_num)]
      norm_num
      ring
    rw [hsum] at hw
    have hhalf : w ≤ 2 ^ 52 + 1 / 2 := le_of_mul_le_mul_right hw hpos
    have hR : em.roundedMantissa ≤ 2 ^ 52 :=
      hr.rounded_le (.inr ⟨by push_cast; exact hhalf, by decide⟩)
    calc (em.roundedMantissa : ℚ) * 2 ^ t
      _ ≤ 2 ^ 52 * 2 ^ t := by gcongr; exact_mod_cast hR
      _ = 2 ^ (52 + t) := two_pow_mul_zpow 52 t
      _ = 2 ^ (t + 52) := by rw [add_comm]

/-- A whole number is not rounded at a negative exponent, and stays whole at the others. -/
theorem Reads.rounded_mul_whole (hr : Reads em w) {n : ℕ} (hn : w * 2 ^ t = n) :
    ∃ m : ℕ, em.roundedMantissa * (2 : ℚ) ^ t = m := by
  obtain ⟨k, rfl | rfl⟩ := t.eq_nat_or_neg
  · exact ⟨em.roundedMantissa * 2 ^ k, by push_cast; rfl⟩
  · have hpos : (0 : ℚ) < 2 ^ k := by positivity
    rw [zpow_neg, zpow_natCast] at hn ⊢
    have hw : w = (n * 2 ^ k : ℕ) := by
      push_cast
      rw [← hn]
      field_simp
    have hR : em.roundedMantissa = n * 2 ^ k :=
      Nat.le_antisymm (hr.rounded_le (.inl hw.le)) (hr.le_rounded hw.ge)
    exact ⟨n, by rw [hR]; push_cast; field_simp⟩

/-- Rounding an aligned mantissa keeps the bounds. -/
theorem Aligned.rounds (h : Aligned w t) (hr : Reads em w) :
    Rounds (w * 2 ^ t) (settle s em.roundedMantissa t) := by
  have hnonneg : 0 ≤ w * 2 ^ t := by
    have hw : 0 ≤ w := (Nat.cast_nonneg _).trans hr.mantissa_le
    positivity
  have habs := abs_value_settle (s := s) (h.rounded_le hr) h.least
  refine ⟨canonical_settle (h.rounded_le hr) h.least ?_, fun k hk hw => ?_, fun hwhole => ?_⟩
  · refine h.full.symm.imp_left fun hfull => hr.le_rounded ?_
    push_cast
    exact hfull
  · rw [abs_of_nonneg hnonneg] at hw
    rw [habs]
    exact h.rounded_mul_le hr hk hw
  · rw [isWhole_iff_abs, abs_of_nonneg hnonneg] at hwhole
    obtain ⟨n, hn⟩ := hwhole
    rw [isWhole_iff_abs, habs]
    exact hr.rounded_mul_whole hn

end

/-- What is canonical is rounded to itself. -/
theorem Canonical.rounds {u : UnpackedFloat} (h : Canonical u) : Rounds (value u) u := by
  cases u with
  | infinity | notANumber => exact h.elim
  | zero s => exact ⟨h, fun k _ _ => by simp [value, zpow_nonneg], fun hw => hw⟩
  | finite s m e hm =>
    obtain ⟨hlt, hleast, hfull⟩ := h
    have hal : Aligned m e := by
      refine ⟨hleast, by exact_mod_cast hlt, hfull.symm.imp_right fun h => ?_⟩
      exact_mod_cast h
    have hr : Reads (exactly m) m := rfl
    have hself : settle s m e = .finite s m e hm := by
      rw [settle_of_lt s hlt hleast, dif_neg (Nat.ne_of_gt hm)]
    refine (hself ▸ hal.rounds hr (s := s)).of_abs_eq ?_
    have hnonneg : (0 : ℚ) ≤ m * 2 ^ e := by positivity
    rw [abs_value_finite, abs_of_nonneg hnonneg]

/-- The mantissa is aligned first and rounded then. -/
theorem exists_aligned (s : Sign) {m : ℕ} {e : ℤ} {acc : Accuracy} {v : ℚ}
    (h : Reads (.ofMantissaAndAccuracy m acc) v) (he : e ≤ target m e) :
    ∃ w t em, Aligned w t ∧ Reads em w ∧ w * 2 ^ t = v * 2 ^ e ∧
      roundWithAccuracy Format.binary64 s m e acc = settle s em.roundedMantissa t := by
  refine ⟨_, _, _, aligned_target h he, h.shiftRight _, ?_, roundWithAccuracy_eq_settle s acc he⟩
  have ht : target m e = e + (target m e - e).toNat := by omega
  generalize (target m e - e).toNat = k at ht
  rw [ht, zpow_add₀ (by norm_num), zpow_natCast]
  field_simp

/-- The general rounding of a mantissa keeps the bounds. -/
theorem rounds_roundWithAccuracy (s : Sign) {m : ℕ} {e : ℤ} {acc : Accuracy} {v : ℚ}
    (h : Reads (.ofMantissaAndAccuracy m acc) v) (he : e ≤ target m e) :
    Rounds (v * 2 ^ e) (roundWithAccuracy Format.binary64 s m e acc) := by
  obtain ⟨w, t, em, hw, hr, hvalue, heq⟩ := exists_aligned s h he
  rw [heq, ← hvalue]
  exact hw.rounds hr

/-- A lower exponent takes a mantissa with more bits. -/
theorem decreaseExponent_eq (m : ℕ) (e t : ℤ) :
    decreaseExponent m e t = (m * 2 ^ (e - t).toNat, e - (e - t).toNat) := by
  rw [decreaseExponent, Nat.shiftLeft_eq]

/-- A mantissa with more bits has the same value at the lower exponent. -/
theorem mul_two_pow_mul (m k : ℕ) (e : ℤ) :
    ((m * 2 ^ k : ℕ) : ℚ) * 2 ^ (e - k) = m * 2 ^ e := by
  rw [zpow_sub₀ (by norm_num), zpow_natCast]
  push_cast
  field_simp

/-- The exponent is decreased first where the mantissa is too short. -/
theorem rounds_round (s : Sign) {m : ℕ} (hm : 0 < m) (e : ℤ) :
    Rounds (m * 2 ^ e) (UnpackedFloat.round Format.binary64 s m e) := by
  change Rounds _ (let p := decreaseExponent m e (target m e); roundWithAccuracy _ s p.1 p.2 .exact)
  simp only [decreaseExponent_eq]
  generalize hk : (e - target m e).toNat = k
  rw [← mul_two_pow_mul m k e]
  refine rounds_roundWithAccuracy s rfl ?_
  rw [target] at hk
  rw [target, log2_mul_two_pow hm]
  omega

/-- Zero is rounded to a zero. -/
theorem rounds_zero (s : Sign) : Rounds 0 (.zero s) := Canonical.rounds (u := .zero s) trivial

/-- An integer with any exponent is rounded. -/
theorem rounds_normalize (n e : ℤ) :
    Rounds (n * 2 ^ e) (UnpackedFloat.normalize Format.binary64 n e .positive) := by
  rw [UnpackedFloat.normalize]
  cases h : compare n 0 with
  | lt =>
    have hn : n < 0 := Int.compare_eq_lt.1 h
    obtain ⟨m, rfl⟩ : ∃ m : ℕ, n = -m := ⟨n.natAbs, by omega⟩
    have hm : ((-(-(m : ℤ))).toNat) = m := by omega
    rw [hm]
    refine (rounds_round .negative (by omega) e).of_abs_eq ?_
    push_cast
    rw [neg_mul, abs_neg]
  | eq =>
    have hn : n = 0 := Int.compare_eq_eq.1 h
    subst hn
    simpa using rounds_zero .positive
  | gt =>
    have hn : 0 < n := Int.compare_eq_gt.1 h
    obtain ⟨m, rfl⟩ : ∃ m : ℕ, n = m := ⟨n.natAbs, by omega⟩
    exact rounds_round .positive (by omega) e

end QueryStats.Double
