import Mathlib
import QueryStats.Scalar

/-!
# Whole numbers as doubles

Below `2 ^ 53` every whole number is a double.  Adding one to it, and taking a smaller one from it,
are then exact, which is why metrics that only count can be kept as doubles.
-/

namespace QueryStats.Double

open Float.Model UnpackedFloat

/-- The double of a whole number below `2 ^ 53`, its mantissa brought to 53 bits. -/
def whole (n : Nat) : UnpackedFloat :=
  if h : n = 0 then .zero .positive
  else .finite .positive (n * 2 ^ (52 - n.log2)) (n.log2 - 52)
    (Nat.mul_pos (Nat.pos_of_ne_zero h) (Nat.two_pow_pos _))

@[simp] theorem whole_zero : whole 0 = .zero .positive := rfl

/-- A whole number above zero fills the mantissa up to its highest bit. -/
theorem whole_of_pos {n : Nat} (h : 0 < n) :
    whole n = .finite .positive (n * 2 ^ (52 - n.log2)) (n.log2 - 52)
      (Nat.mul_pos h (Nat.two_pow_pos _)) := dif_neg (Nat.ne_of_gt h)

/-! ## Rounding -/

/-- Numbers below `2 ^ 53` fit the mantissa. -/
theorem log2_le_of_lt {n : Nat} (h : n < 2 ^ 53) : n.log2 ≤ 52 := by
  by_cases hn : n = 0
  · subst hn; decide
  · exact Nat.le_of_lt_succ ((Nat.log2_lt hn).2 h)

/-- Doubling a number moves its highest bit up by one. -/
theorem log2_mul_two_pow {n : Nat} (h : 0 < n) (s : Nat) : (n * 2 ^ s).log2 = n.log2 + s := by
  have hn : n ≠ 0 := Nat.ne_of_gt h
  have hs : n * 2 ^ s ≠ 0 := Nat.mul_ne_zero hn (Nat.ne_of_gt (Nat.two_pow_pos s))
  refine (Nat.log2_eq_iff hs).2 ⟨?_, ?_⟩
  · rw [Nat.pow_add]
    exact Nat.mul_le_mul_right _ (Nat.log2_self_le hn)
  · rw [show n.log2 + s + 1 = n.log2 + 1 + s by omega, Nat.pow_add]
    exact Nat.mul_lt_mul_of_pos_right Nat.lt_log2_self (Nat.two_pow_pos s)

/-- The exponent that rounding aims at leaves 53 bits, or fewer for the smallest numbers. -/
theorem targetExponent_eq (e : Int) : Format.binary64.targetExponent e = max (e - 53) (-1074) := rfl

/-- A mantissa with nothing after its last bit. -/
def exactly (m : Nat) : ExtendedMantissa := ⟨m, false, false⟩

/-- Shifting out zero bits is exact. -/
theorem shiftRight_exactly (m k : Nat) : exactly (m * 2 ^ k) >>> k = exactly m := by
  change k.repeat ExtendedMantissa.shiftRightOne _ = _
  induction k generalizing m with
  | zero => simp [Nat.repeat]
  | succ k ih =>
    rw [Nat.repeat, Nat.pow_succ', ← Nat.mul_assoc, ih (m * 2)]
    simp [ExtendedMantissa.shiftRightOne, exactly]

/-- The target exponent of a whole number, however far its mantissa was shifted. -/
theorem targetExponent_whole {n : Nat} (h : 0 < n) (s : Nat) :
    Format.binary64.targetExponent (totalExponent (n * 2 ^ s) (-s)) = n.log2 - 52 := by
  rw [targetExponent_eq, totalExponent, log2_mul_two_pow h]
  omega

/-- A whole number with zeros behind its mantissa loses only those zeros. -/
theorem shiftToTargetExponent_whole {n : Nat} (h : 0 < n) {s : Nat} (hn : n < 2 ^ 53)
    (hs : 52 - n.log2 ≤ s) :
    shiftToTargetExponent Format.binary64 (n * 2 ^ s) (-s) .exact =
      (exactly (n * 2 ^ (52 - n.log2)), (n.log2 : Int) - 52) := by
  have hl := log2_le_of_lt hn
  simp only [shiftToTargetExponent, targetExponent_whole h, shiftToExponent]
  have hk : ((n.log2 : Int) - 52 - -s).toNat = s - (52 - n.log2) := by omega
  have hp : n * 2 ^ s = n * 2 ^ (52 - n.log2) * 2 ^ (s - (52 - n.log2)) := by
    rw [Nat.mul_assoc, ← Nat.pow_add]
    congr 2
    omega
  rw [hk, hp, show ExtendedMantissa.ofMantissaAndAccuracy _ .exact = exactly _ from rfl,
    shiftRight_exactly]
  congr 1
  omega

/-- Nothing is rounded off a whole number below `2 ^ 53`. -/
theorem roundWithAccuracy_whole {n : Nat} (h : 0 < n) (hn : n < 2 ^ 53) {s : Nat}
    (hs : 52 - n.log2 ≤ s) :
    roundWithAccuracy Format.binary64 .positive (n * 2 ^ s) (-s) .exact = whole n := by
  have hl := log2_le_of_lt hn
  have he : (n.log2 : Int) - 52 = -((52 - n.log2 : Nat) : Int) := by omega
  have second : shiftToTargetExponent Format.binary64 (n * 2 ^ (52 - n.log2)) (n.log2 - 52) .exact =
      (exactly (n * 2 ^ (52 - n.log2)), (n.log2 : Int) - 52) := by
    rw [he, shiftToTargetExponent_whole h hn (Nat.le_refl _), he]
  have hm : (exactly (n * 2 ^ (52 - n.log2))).roundedMantissa = n * 2 ^ (52 - n.log2) := rfl
  simp only [roundWithAccuracy, shiftToTargetExponent_whole h hn hs, hm, second]
  rw [whole_of_pos h]
  exact dif_neg (Nat.ne_of_gt (Nat.mul_pos h (Nat.two_pow_pos _)))

/-- A whole number below `2 ^ 53` is not changed by rounding. -/
theorem round_whole {n : Nat} (h : 0 < n) (hn : n < 2 ^ 53) (s : Nat) :
    UnpackedFloat.round Format.binary64 .positive (n * 2 ^ s) (-s) = whole n := by
  have hl := log2_le_of_lt hn
  simp only [UnpackedFloat.round, targetExponent_whole h, decreaseExponent]
  generalize hk : (-(s : Int) - ((n.log2 : Int) - 52)).toNat = k
  have he : -(s : Int) - k = -((s + k : Nat) : Int) := by omega
  rw [Nat.shiftLeft_eq, Nat.mul_assoc, ← Nat.pow_add, he]
  exact roundWithAccuracy_whole h hn (by omega)

/-- However a whole number is scaled, it becomes the double that stands for it. -/
theorem normalize_whole {n : Nat} (hn : n < 2 ^ 53) (s : Nat) :
    UnpackedFloat.normalize Format.binary64 ((n * 2 ^ s : Nat) : Int) (-s) .positive = whole n := by
  by_cases h : n = 0
  · subst h
    simp [UnpackedFloat.normalize]
  · have hp : 0 < n := Nat.pos_of_ne_zero h
    have hc : compare (((n * 2 ^ s : Nat) : Int)) 0 = .gt := by
      rw [Int.compare_eq_gt]
      exact_mod_cast Nat.mul_pos hp (Nat.two_pow_pos s)
    simp only [UnpackedFloat.normalize, hc, Int.toNat_natCast]
    exact round_whole hp hn s

/-! ## Packing -/

/-- Packing keeps the sign. -/
@[simp] theorem unpackSign_packComponents {spec : Format} (s : Sign)
    (e : BitVec spec.exponentBits) (m : BitVec spec.mantissaBitsWithoutImplicit) :
    unpackSign (packComponents spec s e m) = s.toBitVec := by
  ext i hi
  have hi0 : i = 0 := by omega
  subst hi0
  simp [unpackSign, packComponents, BitVec.getLsbD_append, BitVec.getElem_append]

/-- The bit of a sign tells the sign. -/
@[simp] theorem ofBitVec_toBitVec (s : Sign) : Sign.ofBitVec s.toBitVec = s := by cases s <;> rfl

/-- The mantissa of a normal double with the bit that packing leaves out. -/
theorem toNat_implicit {m : Nat} (hl : 2 ^ 52 ≤ m) (hu : m < 2 ^ 53) :
    (1#1 ++ BitVec.ofNat 52 m).toNat = m := by
  rw [BitVec.toNat_append, ← Nat.shiftLeft_add_eq_or_of_lt (BitVec.isLt _), BitVec.toNat_ofNat,
    Nat.shiftLeft_eq]
  simp only [BitVec.toNat_ofNat]
  omega

/-- A normal double is not changed by packing. -/
theorem unpack_pack_normal (s : Sign) {m : Nat} {e : Int} (hm : 0 < m) (hl : m.log2 = 52)
    (he : 0 < e + 1075) (he' : e + 1075 < 2047) :
    (Float.Model.pack (.finite s m e hm)).unpack = .finite s m e hm := by
  obtain ⟨hlo, hhi⟩ := (Nat.log2_eq_iff (Nat.ne_of_gt hm)).1 hl
  obtain ⟨b, rfl⟩ : ∃ b : Nat, e = b - 1075 := ⟨(e + 1075).toNat, by omega⟩
  have hbias : Format.binary64.exponentBias = 1023 := rfl
  have hbits : Format.binary64.mantissaBits = 53 := rfl
  have hb : ((b : Int) - 1075 + (1023 : Nat) + (52 : Nat)).toNat = b := by omega
  have hcap : ¬ 2 ^ 11 ≤ b + 1 := by omega
  have toNat_b : (BitVec.ofNat 11 b).toNat = b := by
    rw [BitVec.toNat_ofNat]
    omega
  have ofNat_ne : ∀ c : BitVec 11, c.toNat ≠ b → BitVec.ofNat 11 b ≠ c := by
    rintro c hc rfl
    exact hc toNat_b
  -- The largest exponent stands for infinities and NaN, the smallest for subnormal numbers.
  have hne : BitVec.ofNat 11 b ≠ -1#11 := ofNat_ne _ (by simp; omega)
  have hnz : BitVec.ofNat 11 b ≠ 0#11 := ofNat_ne _ (by simp; omega)
  simp only [Float.Model.unpack, Float.Model.pack, UnpackedFloat.pack, hl, hbias, hb, hcap, hbits,
    if_false, if_true]
  simp only [UnpackedFloat.unpack, unpackMantissa_packComponents, unpackExponent_packComponents,
    unpackSign_packComponents, ofBitVec_toBitVec]
  rw [if_neg hne, if_neg hnz, finite.injEq]
  refine ⟨rfl, toNat_implicit hlo hhi, ?_⟩
  rw [hbias, toNat_b]
  omega

/-- Packing loses nothing of a whole number below `2 ^ 53`. -/
theorem unpack_pack_whole {n : Nat} (hn : n < 2 ^ 53) :
    (Float.Model.pack (whole n)).unpack = whole n := by
  by_cases h : n = 0
  · subst h; rfl
  · have hp : 0 < n := Nat.pos_of_ne_zero h
    have hl := log2_le_of_lt hn
    have hlog : (n * 2 ^ (52 - n.log2)).log2 = 52 := by
      rw [log2_mul_two_pow hp]
      omega
    rw [whole_of_pos hp]
    exact unpack_pack_normal .positive _ hlog (by omega) (by omega)

/-! ## Sums, differences and products -/

/-- A whole number can be brought to a lower exponent exactly. -/
theorem decreaseExponent_whole {n s : Nat} (hn : n < 2 ^ 53) (hs : 52 - n.log2 ≤ s) :
    decreaseExponent (n * 2 ^ (52 - n.log2)) ((n.log2 : Int) - 52) (-s) =
      (n * 2 ^ s, -(s : Int)) := by
  have hl := log2_le_of_lt hn
  have hk : ((n.log2 : Int) - 52 - -s).toNat = s - (52 - n.log2) := by omega
  rw [decreaseExponent, hk, Nat.shiftLeft_eq, Nat.mul_assoc, ← Nat.pow_add, Prod.mk.injEq]
  refine ⟨?_, by omega⟩
  congr 2
  omega

/-- The exponent at which two whole numbers meet. -/
theorem min_exponent {m n : Nat} (hm : m < 2 ^ 53) (hn : n < 2 ^ 53) :
    ∃ s : Nat, 52 - m.log2 ≤ s ∧ 52 - n.log2 ≤ s ∧
      min ((m.log2 : Int) - 52) ((n.log2 : Int) - 52) = -(s : Int) := by
  have hlm := log2_le_of_lt hm
  have hln := log2_le_of_lt hn
  exact ⟨max (52 - m.log2) (52 - n.log2), by omega, by omega, by omega⟩

/-- Sums of whole numbers are exact below `2 ^ 53`. -/
theorem add_whole {m n : Nat} (h : m + n < 2 ^ 53) :
    UnpackedFloat.add Format.binary64 (whole m) (whole n) = whole (m + n) := by
  rcases Nat.eq_zero_or_pos m with rfl | hm
  · rcases Nat.eq_zero_or_pos n with rfl | hn
    · rfl
    · rw [Nat.zero_add, whole_of_pos hn]
      rfl
  rcases Nat.eq_zero_or_pos n with rfl | hn
  · rw [Nat.add_zero, whole_of_pos hm]
    rfl
  obtain ⟨s, hsm, hsn, hs⟩ := min_exponent (m := m) (n := n) (by omega) (by omega)
  have hsum : Sign.positive.apply ((m * 2 ^ s : Nat) : Int) +
      Sign.positive.apply ((n * 2 ^ s : Nat) : Int) = (((m + n) * 2 ^ s : Nat) : Int) := by
    simp only [Sign.apply]
    push_cast
    ring
  rw [whole_of_pos hm, whole_of_pos hn]
  simp only [UnpackedFloat.add, hs]
  rw [decreaseExponent_whole (by omega) hsm, decreaseExponent_whole (by omega) hsn]
  simp only [hsum]
  exact normalize_whole h s

/-- So are their differences. -/
theorem sub_whole {m n : Nat} (h : m + n < 2 ^ 53) :
    UnpackedFloat.sub Format.binary64 (whole (m + n)) (whole m) = whole n := by
  rcases Nat.eq_zero_or_pos m with rfl | hm
  · rcases Nat.eq_zero_or_pos n with rfl | hn
    · rfl
    · rw [Nat.zero_add, whole_of_pos hn]
      rfl
  obtain ⟨s, hsmn, hsm, hs⟩ := min_exponent (m := m + n) (n := m) h (by omega)
  have hdiff : Sign.positive.apply (((m + n) * 2 ^ s : Nat) : Int) -
      Sign.positive.apply ((m * 2 ^ s : Nat) : Int) = ((n * 2 ^ s : Nat) : Int) := by
    simp only [Sign.apply]
    push_cast
    ring
  rw [whole_of_pos (show 0 < m + n by omega), whole_of_pos hm]
  simp only [UnpackedFloat.sub, hs]
  rw [decreaseExponent_whole h hsmn, decreaseExponent_whole (by omega) hsm]
  simp only [hdiff]
  exact normalize_whole (by omega) s

/-- Multiplying by one changes nothing. -/
theorem mul_whole_one {n : Nat} (hn : n < 2 ^ 53) :
    UnpackedFloat.mul Format.binary64 (whole n) (whole 1) = whole n := by
  rcases Nat.eq_zero_or_pos n with rfl | h
  · rfl
  have hl := log2_le_of_lt hn
  have hm : n * 2 ^ (52 - n.log2) * (1 * 2 ^ 52) = n * 2 ^ (104 - n.log2) := by
    rw [Nat.one_mul, Nat.mul_assoc, ← Nat.pow_add]
    congr 2
    omega
  have he : (n.log2 : Int) - 52 + ((0 : Nat) - 52) = -((104 - n.log2 : Nat) : Int) := by omega
  have hone : whole 1 = .finite .positive (1 * 2 ^ 52) ((0 : Nat) - 52) (by decide) := rfl
  rw [whole_of_pos h, hone, UnpackedFloat.mul, hm, he, ← whole_of_pos h]
  exact roundWithAccuracy_whole h hn (by omega)

/-! ## Doubles -/

/-- A word below `2 ^ 53` is converted exactly. -/
theorem ofUInt64_eq {n : Nat} (hn : n < 2 ^ 53) :
    n.toUInt64.toFloat = .ofModel (.pack (whole n)) := by
  have hw : n.toUInt64.toNat = n := by
    rw [Nat.toUInt64_eq, UInt64.toNat_ofNat']
    omega
  have h := normalize_whole hn 0
  simp only [Nat.pow_zero, Nat.mul_one] at h
  simp only [UInt64.toFloat, Float.Model.ofUInt64, UnpackedFloat.ofUInt64, hw, UnpackedFloat.ofNat,
    UnpackedFloat.ofInt]
  exact congrArg (fun u => Float.ofModel (Float.Model.pack u)) h

/-- A natural number below `2 ^ 53` is converted exactly. -/
theorem ofNat_eq {n : Nat} (hn : n < 2 ^ 53) : Float.ofNat n = .ofModel (.pack (whole n)) := by
  have hone : Float.ofBits 0x3ff0000000000000 = .ofModel (.pack (whole 1)) := by decide
  have h : Float.ofNat n = n.toUInt64.toFloat * Float.ofBits 0x3ff0000000000000 := by
    change Float.ofScientific n false 0 = _
    rw [Float.ofScientific, dif_pos ⟨hn, by decide⟩]
    rfl
  rw [h, hone, ofUInt64_eq hn]
  change Float.ofModel (.pack (.mul _ (Float.Model.pack (whole n)).unpack
    (Float.Model.pack (whole 1)).unpack)) = _
  rw [unpack_pack_whole hn, unpack_pack_whole (by decide), mul_whole_one hn]

/-- It makes no difference whether the number is a word first. -/
theorem ofNat_eq_toFloat {n : Nat} (hn : n < 2 ^ 53) : Float.ofNat n = (UInt64.ofNat n).toFloat :=
  (ofNat_eq hn).trans (ofUInt64_eq hn).symm

/-- Counting in doubles is exact below `2 ^ 53`. -/
theorem ofNat_add {m n : Nat} (h : m + n < 2 ^ 53) :
    Float.ofNat m + Float.ofNat n = Float.ofNat (m + n) := by
  rw [ofNat_eq h, ofNat_eq (show m < 2 ^ 53 by omega), ofNat_eq (show n < 2 ^ 53 by omega)]
  change Float.ofModel (.pack (.add _ (Float.Model.pack (whole m)).unpack
    (Float.Model.pack (whole n)).unpack)) = _
  rw [unpack_pack_whole (by omega), unpack_pack_whole (by omega), add_whole h]

/-- Taking a count off again is exact as well. -/
theorem ofNat_add_sub {m n : Nat} (h : m + n < 2 ^ 53) :
    Float.ofNat (m + n) - Float.ofNat m = Float.ofNat n := by
  rw [ofNat_eq h, ofNat_eq (show m < 2 ^ 53 by omega), ofNat_eq (show n < 2 ^ 53 by omega)]
  change Float.ofModel (.pack (.sub _ (Float.Model.pack (whole (m + n))).unpack
    (Float.Model.pack (whole m)).unpack)) = _
  rw [unpack_pack_whole h, unpack_pack_whole (by omega), sub_whole h]

/-- A count is zero as a double exactly if it is zero. -/
theorem ofNat_beq_zero {n : Nat} (hn : n < 2 ^ 53) : (Float.ofNat n == 0) = (n == 0) := by
  have hz : (0 : Float) = .ofModel (.pack (whole 0)) := ofNat_eq (by decide)
  rw [ofNat_eq hn, hz]
  change UnpackedFloat.beq (Float.Model.pack (whole n)).unpack
    (Float.Model.pack (whole 0)).unpack = _
  rw [unpack_pack_whole hn, unpack_pack_whole (by decide)]
  rcases Nat.eq_zero_or_pos n with rfl | h
  · rfl
  · rw [whole_of_pos h]
    simp [UnpackedFloat.beq, UnpackedFloat.compare, Nat.ne_of_gt h]

end QueryStats.Double
