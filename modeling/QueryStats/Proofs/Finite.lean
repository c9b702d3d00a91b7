import QueryStats.Proofs.Operations

/-!
# Doubles that stay finite

A double is told by its value as long as the value is in range.  Bounds by powers of two carry over
from the operands of an operation to its result; a sum stops growing when it is `2 ^ 53` times as
large as what is added to it, so that it stays in range however often that is done.
-/

namespace QueryStats.Double

open Float.Model UnpackedFloat

/-! ## Packing -/

/-- A subnormal double is not changed by packing. -/
theorem unpack_pack_subnormal (s : Sign) {m : ℕ} (hm : 0 < m) (hlt : m < 2 ^ 52) :
    (Float.Model.pack (.finite s m (-1074) hm)).unpack = .finite s m (-1074) hm := by
  have hlog : m.log2 < 52 := (Nat.log2_lt (Nat.ne_of_gt hm)).2 hlt
  have hbias : Format.binary64.exponentBias = 1023 := rfl
  have hbits : Format.binary64.mantissaBits = 53 := rfl
  have hne : ¬m.log2 + 1 = 53 := by omega
  have htoNat : (BitVec.ofNat 52 m).toNat = m := by
    rw [BitVec.toNat_ofNat]
    omega
  have hnz : BitVec.ofNat 52 m ≠ 0#52 := by
    intro h
    rw [h] at htoNat
    simp at htoNat
    omega
  have hcap : ¬2 ^ 11 ≤ (-1074 + ((1023 : ℕ) : ℤ) + ((52 : ℕ) : ℤ)).toNat + 1 := by decide
  have hzero : ¬(0#11 : BitVec 11) = -1#11 := by decide
  simp only [Float.Model.unpack, Float.Model.pack, UnpackedFloat.pack, hbias, hbits, hne, hcap,
    if_false]
  simp only [UnpackedFloat.unpack, unpackMantissa_packComponents, unpackExponent_packComponents,
    unpackSign_packComponents, ofBitVec_toBitVec]
  rw [if_neg hzero, if_pos trivial, dif_neg hnz, finite.injEq]
  exact ⟨rfl, htoNat, rfl⟩

/-- Packing keeps a zero and its sign. -/
theorem unpack_pack_zero (s : Sign) : (Float.Model.pack (.zero s)).unpack = .zero s := by
  cases s <;> rfl

/-- Packing does not change what is canonical and not too large. -/
theorem unpack_pack {u : UnpackedFloat} (h : Canonical u) (hlt : |value u| < 2 ^ (1024 : ℤ)) :
    (Float.Model.pack u).unpack = u := by
  cases u with
  | infinity | notANumber => exact h.elim
  | zero s => exact unpack_pack_zero s
  | finite s m e hm =>
    obtain ⟨hm53, hleast, hfull⟩ := h
    obtain hnormal | hsub := Nat.lt_or_ge m (2 ^ 52)
    · obtain rfl : e = -1074 := hfull.resolve_left (by omega)
      exact unpack_pack_subnormal s hm hnormal
    · have hlog : m.log2 = 52 := (Nat.log2_eq_iff (Nat.ne_of_gt hm)).2 ⟨hsub, hm53⟩
      refine unpack_pack_normal s hm hlog (by omega) ?_
      by_contra hlarge
      have hle : (2 : ℚ) ^ (1024 : ℤ) ≤ m * 2 ^ e := by
        calc (2 : ℚ) ^ (1024 : ℤ)
          _ ≤ 2 ^ (52 + e) := two_zpow_le (by omega)
          _ = 2 ^ 52 * 2 ^ e := (two_pow_mul_zpow 52 e).symm
          _ ≤ m * 2 ^ e := by gcongr; exact_mod_cast hsub
      rw [abs_value_finite] at hlt
      exact absurd hlt (not_lt.2 hle)

/-- A packed double that is finite has a mantissa of 53 bits, or fewer at the least exponent. -/
theorem canonical_unpack {f : Float.Model} (hf : f.unpack.isFinite) : Canonical f.unpack := by
  revert hf
  rw [Float.Model.unpack]
  generalize f.toBits.toBitVec = b
  have hbias : Format.binary64.exponentBias = 1023 := rfl
  have hlt : (@unpackMantissa Format.binary64 b).toNat < 2 ^ 52 := BitVec.isLt _
  simp only [UnpackedFloat.unpack, hbias]
  split_ifs with hspecial hinf hsub hzero
  · exact Bool.noConfusion
  · exact Bool.noConfusion
  · exact fun _ => trivial
  · intro _
    refine ⟨by omega, ?_, .inr ?_⟩ <;> rw [hsub] <;> decide
  · intro _
    have hpos : (@unpackExponent Format.binary64 b).toNat ≠ 0 :=
      fun h => hsub (BitVec.eq_of_toNat_eq h)
    have hm : (1#1 ++ @unpackMantissa Format.binary64 b).toNat =
        2 ^ 52 + (@unpackMantissa Format.binary64 b).toNat := by
      rw [BitVec.toNat_append, ← Nat.shiftLeft_add_eq_or_of_lt hlt, Nat.shiftLeft_eq]
      rfl
    refine ⟨?_, by omega, .inl ?_⟩ <;> rw [hm] <;> omega

/-- The exponent of a packed double has an upper limit. -/
theorem exponent_unpack_le {f : Float.Model} {s : Sign} {m : ℕ} {e : ℤ} {h : 0 < m}
    (hf : f.unpack = .finite s m e h) : e ≤ 971 := by
  have hbias : Format.binary64.exponentBias = 1023 := rfl
  have hmax : (-1#11 : BitVec 11).toNat = 2047 := rfl
  revert hf
  rw [Float.Model.unpack]
  generalize f.toBits.toBitVec = b
  have hlt : (@unpackExponent Format.binary64 b).toNat < 2 ^ 11 := BitVec.isLt _
  simp only [UnpackedFloat.unpack, hbias]
  split_ifs with hspecial hinf hsub hzero
  · intro h; cases h
  · intro h; cases h
  · intro h; cases h
  · rw [finite.injEq, hsub]
    rintro ⟨-, -, rfl⟩
    decide
  · rw [finite.injEq]
    rintro ⟨-, -, rfl⟩
    have hne : (@unpackExponent Format.binary64 b).toNat ≠ 2047 :=
      fun h => hspecial (BitVec.eq_of_toNat_eq h)
    omega

/-- A double is below the power of two that follows from its exponent. -/
theorem abs_value_finite_lt {s : Sign} {m : ℕ} {e : ℤ} {h : 0 < m} (hm : m < 2 ^ 53) {k : ℤ}
    (he : e ≤ k) : |value (.finite s m e h)| < 2 ^ (k + 53) := by
  have hm' : (m : ℚ) < 2 ^ 53 := by exact_mod_cast hm
  rw [abs_value_finite]
  calc (m : ℚ) * 2 ^ e
    _ < 2 ^ 53 * 2 ^ e := by gcongr
    _ = 2 ^ (53 + e) := two_pow_mul_zpow 53 e
    _ ≤ 2 ^ (k + 53) := two_zpow_le (by omega)

/-- No finite double is farther from zero than `2 ^ 1024`. -/
theorem abs_value_unpack_lt {f : Float.Model} (hf : f.unpack.isFinite) :
    |value f.unpack| < 2 ^ (1024 : ℤ) := by
  have hc := canonical_unpack hf
  cases hu : f.unpack with
  | infinity | notANumber | zero => simp only [value, abs_zero]; positivity
  | finite s m e h =>
    rw [hu] at hc
    exact abs_value_finite_lt hc.1 (exponent_unpack_le hu)

/-! ## Doubles by their value -/

/-- The value of a double. -/
def valueOf (x : Float) : ℚ := value x.toModel.unpack

/-- A double that is finite and no farther from zero than a power of two. -/
structure Within (k : ℤ) (x : Float) : Prop where
  canonical : Canonical x.toModel.unpack
  le : |valueOf x| ≤ 2 ^ k

/-- A double with a bound is finite. -/
theorem Within.isFinite {k : ℤ} {x : Float} (h : Within k x) : x.isFinite := by
  change x.toModel.unpack.isFinite = true
  have hc := h.canonical
  cases hu : x.toModel.unpack with
  | infinity | notANumber =>
    rw [hu] at hc
    exact hc.elim
  | zero | finite => rfl

/-- A larger power of two is a bound as well. -/
theorem Within.mono {j k : ℤ} {x : Float} (h : Within j x) (hjk : j ≤ k) : Within k x :=
  ⟨h.canonical, h.le.trans (two_zpow_le hjk)⟩

/-- What was rounded is a double if it is not too large. -/
theorem Rounds.toModel_unpack {v : ℚ} {u : UnpackedFloat} (h : Rounds v u) {k : ℤ}
    (hk : -1022 ≤ k) (hk' : k ≤ 1023) (hv : |v| ≤ 2 ^ k + 2 ^ (k - 53)) :
    (Float.ofModel (.pack u)).toModel.unpack = u := by
  refine unpack_pack h.canonical ?_
  calc |value u|
    _ ≤ 2 ^ k := h.le k hk hv
    _ ≤ 2 ^ (1023 : ℤ) := two_zpow_le hk'
    _ < 2 ^ (1024 : ℤ) := two_zpow_lt (by decide)

/-- Packing keeps the bound of a rounded value, as long as it is in the range of doubles. -/
theorem Rounds.within {v : ℚ} {u : UnpackedFloat} (h : Rounds v u) {k : ℤ}
    (hk : -1022 ≤ k) (hk' : k ≤ 1023) (hv : |v| ≤ 2 ^ k + 2 ^ (k - 53)) :
    Within k (Float.ofModel (.pack u)) := by
  have hu := h.toModel_unpack hk hk' hv
  refine ⟨?_, ?_⟩
  · rw [hu]
    exact h.canonical
  · rw [valueOf, hu]
    exact h.le k hk hv

/-- A whole number among the doubles. -/
structure WholeWithin (k : ℤ) (x : Float) : Prop extends Within k x where
  whole : IsWhole (valueOf x)

section

variable {v : ℚ} {k : ℤ} {x y : Float}

/-- Packing keeps whole numbers whole. -/
theorem Rounds.wholeWithin {u : UnpackedFloat} (h : Rounds v u) (hk : -1022 ≤ k) (hk' : k ≤ 1023)
    (hv : |v| ≤ 2 ^ k + 2 ^ (k - 53)) (hwhole : IsWhole v) :
    WholeWithin k (Float.ofModel (.pack u)) where
  toWithin := h.within hk hk' hv
  whole := by
    rw [valueOf, h.toModel_unpack hk hk' hv]
    exact h.whole hwhole

/-! ## Sums -/

/-- A sum exceeds a bound at most by the smaller summand, which rounding takes off again. -/
theorem abs_add_valueOf_le (hx : Within k x) (hy : Within (k - 53) y) :
    |valueOf x + valueOf y| ≤ 2 ^ k + 2 ^ (k - 53) :=
  (abs_add_le _ _).trans (add_le_add hx.le hy.le)

/-- A sum does not grow any more when it is `2 ^ 53` times as large as what is added to it. -/
theorem Within.add (hx : Within k x) (hy : Within (k - 53) y) (hk : -1022 ≤ k) (hk' : k ≤ 1023) :
    Within k (x + y) :=
  (rounds_add hx.canonical hy.canonical).within hk hk' (abs_add_valueOf_le hx hy)

/-- Counting up keeps whole numbers whole and does not exceed the bound. -/
theorem WholeWithin.add (hx : WholeWithin k x) (hy : WholeWithin (k - 53) y) (hk : -1022 ≤ k)
    (hk' : k ≤ 1023) : WholeWithin k (x + y) :=
  (rounds_add hx.canonical hy.canonical).wholeWithin hk hk'
    (abs_add_valueOf_le hx.toWithin hy.toWithin) (hx.whole.add hy.whole)

/-! ## Differences -/

/-- A difference is at most twice as large as what it is taken of. -/
theorem abs_sub_valueOf_le (hx : Within k x) (hy : Within k y) :
    |valueOf x - valueOf y| ≤ 2 ^ (k + 1) + 2 ^ (k + 1 - 53) := by
  have hpos : (0 : ℚ) < 2 ^ (k + 1 - 53) := by positivity
  calc |valueOf x - valueOf y|
    _ ≤ |valueOf x| + |valueOf y| := abs_sub _ _
    _ ≤ 2 ^ k + 2 ^ k := add_le_add hx.le hy.le
    _ = 2 ^ (k + 1) := by rw [zpow_add_one₀ (by norm_num)]; ring
    _ ≤ 2 ^ (k + 1) + 2 ^ (k + 1 - 53) := by linarith

/-- A difference needs one more bit. -/
theorem Within.sub (hx : Within k x) (hy : Within k y) (hk : -1022 ≤ k + 1) (hk' : k + 1 ≤ 1023) :
    Within (k + 1) (x - y) :=
  (rounds_sub hx.canonical hy.canonical).within hk hk' (abs_sub_valueOf_le hx hy)

/-- Differences of whole numbers are whole. -/
theorem WholeWithin.sub (hx : WholeWithin k x) (hy : WholeWithin k y) (hk : -1022 ≤ k + 1)
    (hk' : k + 1 ≤ 1023) : WholeWithin (k + 1) (x - y) :=
  (rounds_sub hx.canonical hy.canonical).wholeWithin hk hk'
    (abs_sub_valueOf_le hx.toWithin hy.toWithin) (hx.whole.sub hy.whole)

/-! ## Products and quotients -/

/-- The bound of a product is the product of the bounds. -/
theorem Within.mul {j : ℤ} (hx : Within j x) (hy : Within k y) (hk : -1022 ≤ j + k)
    (hk' : j + k ≤ 1023) : Within (j + k) (x * y) := by
  refine (rounds_mul hx.canonical hy.canonical).within hk hk' ?_
  have hpos : (0 : ℚ) < 2 ^ (j + k - 53) := by positivity
  have hle : |valueOf x| * |valueOf y| ≤ 2 ^ j * 2 ^ k :=
    mul_le_mul hx.le hy.le (abs_nonneg _) (by positivity)
  change |valueOf x * valueOf y| ≤ _
  rw [abs_mul, zpow_add₀ (by norm_num)]
  linarith

/-- A quotient by a whole number is no larger. -/
theorem Within.div {j : ℤ} (hx : Within k x) (hy : WholeWithin j y) (hzero : valueOf y ≠ 0)
    (hk : -1022 ≤ k) (hk' : k ≤ 1023) : Within k (x / y) := by
  refine (rounds_div hx.canonical hy.canonical hzero).within hk hk' ?_
  have hpos : (0 : ℚ) < 2 ^ (k - 53) := by positivity
  have hone : 1 ≤ |valueOf y| := by
    obtain ⟨n, hn⟩ := hy.whole
    have hne : n ≠ 0 := by
      rintro rfl
      exact hzero (by simpa using hn)
    rw [hn]
    exact_mod_cast Int.one_le_abs hne
  change |valueOf x / valueOf y| ≤ _
  rw [abs_div]
  calc |valueOf x| / |valueOf y|
    _ ≤ |valueOf x| := div_le_self (abs_nonneg _) hone
    _ ≤ 2 ^ k := hx.le
    _ ≤ 2 ^ k + 2 ^ (k - 53) := by linarith

end

/-! ## Zero -/

/-- Only zeros have the value zero, with either sign. -/
theorem eq_zero_of_value_eq_zero {u : UnpackedFloat} (h : Canonical u) (hzero : value u = 0) :
    ∃ s, u = .zero s := by
  cases u with
  | infinity | notANumber => exact h.elim
  | zero s => exact ⟨s, rfl⟩
  | finite s m e hm =>
    have hpos : (0 : ℚ) < m * 2 ^ e := by positivity
    rw [← abs_value_finite s m e hm, hzero, abs_zero] at hpos
    exact absurd hpos (lt_irrefl 0)

/-- A double of value zero compares equal to zero. -/
theorem beq_zero_of_valueOf {k : ℤ} {x : Float} (h : Within k x) (hzero : valueOf x = 0) :
    (x == 0) = true := by
  obtain ⟨s, hs⟩ := eq_zero_of_value_eq_zero h.canonical hzero
  change UnpackedFloat.beq x.toModel.unpack (0 : Float).toModel.unpack = true
  rw [hs]
  rfl

/-- Doubles compare as they do unpacked. -/
theorem lt_iff {x y : Float} : x < y ↔ UnpackedFloat.lt x.toModel.unpack y.toModel.unpack :=
  decide_eq_true_iff

/-- So do they with equality. -/
theorem le_iff {x y : Float} : x ≤ y ↔ UnpackedFloat.le x.toModel.unpack y.toModel.unpack :=
  decide_eq_true_iff

/-- A minus turns the value round. -/
theorem value_negative (m : ℕ) (e : ℤ) (hm : 0 < m) :
    value (.finite .negative m e hm) = -(m * 2 ^ e) := by
  simp [value, Sign.apply]

/-- A double whose value is not negative is not below zero. -/
theorem zero_le_of_valueOf {x : Float} (h : Canonical x.toModel.unpack) (hx : 0 ≤ valueOf x) :
    0 ≤ x := by
  rw [le_iff]
  rw [valueOf] at hx
  cases hu : x.toModel.unpack with rw [hu] at h hx
  | infinity | notANumber => exact h.elim
  | zero => rfl
  | finite s m e hm =>
    cases s with
    | positive => rfl
    | negative =>
      have hpos : (0 : ℚ) < m * 2 ^ e := by positivity
      rw [value_negative] at hx
      linarith

/-- A double of value zero is not above zero. -/
theorem not_zero_lt_of_valueOf {k : ℤ} {x : Float} (h : Within k x) (hzero : valueOf x = 0) :
    ¬0 < x := by
  obtain ⟨s, hs⟩ := eq_zero_of_value_eq_zero h.canonical hzero
  rw [lt_iff, hs]
  exact Bool.false_ne_true

/-- Zero is whole and within every bound. -/
theorem wholeWithin_zero (k : ℤ) : WholeWithin k 0 := by
  have hvalue : valueOf 0 = 0 := rfl
  exact ⟨⟨trivial, by rw [hvalue, abs_zero]; positivity⟩, ⟨0, by rw [hvalue]; rfl⟩⟩

/-- One is whole and within the bound one. -/
theorem wholeWithin_one : WholeWithin 0 1 := by
  have hunpack : (1 : Float).toModel.unpack = .finite .positive (2 ^ 52) (-52) (by decide) := rfl
  have hvalue : valueOf 1 = 1 := by
    rw [valueOf, hunpack, value, zpow_neg]
    norm_num [Sign.apply]
  refine ⟨⟨?_, ?_⟩, ?_⟩
  · rw [hunpack]
    exact ⟨by decide, by decide, .inl (Nat.le_refl _)⟩
  · rw [hvalue]; norm_num
  · rw [hvalue]; exact ⟨1, by norm_num⟩

/-- A thousand, as mantissa and exponent. -/
theorem unpack_thousand : (1000 : Float).toModel.unpack =
    .finite .positive (1000 * 2 ^ 43) (-43) (by decide) := rfl

/-- A thousand is exact. -/
theorem valueOf_thousand : valueOf 1000 = 1000 := by
  rw [valueOf, unpack_thousand, value, zpow_neg]
  norm_num [Sign.apply]

/-- Scaling by a thousand takes ten bits. -/
theorem within_thousand : Within 10 1000 where
  canonical := by
    rw [unpack_thousand]
    exact ⟨by decide, by decide, .inl (by decide)⟩
  le := by
    rw [valueOf_thousand]
    norm_num

end QueryStats.Double
