import QueryStats.Decimal.Layout
import QueryStats.Proofs.Lexemes
import QueryStats.Proofs.Significant

/-!
# Doubles written in decimal

A finite double is written as a number of the grammar, and what the number says is the value of the
double, rounded to the digits of the layout.  It does not matter for that where the point stands,
which zeros are filled in or left out, and whether there is an exponent.
-/

namespace QueryStats

open Json (IsDigits Fraction Exponent Magnitude Number)
open Decimal (IsRounded digitCount toRat)
open Float.Model.UnpackedFloat (Sign)

/-- The value of a number. -/
def Json.toRat? : Json → Option ℚ
  | .number false d => some d.toRat
  | .number true d => some (-d.toRat)
  | _ => none

/-- A number says what a double is, up to so many significant digits. -/
def Shows (n : ℕ) (x : Float) (v : Json) : Prop :=
  ∃ q, v.toRat? = some q ∧ IsRounded n (Double.valueOf x) q

namespace Shows

variable {n : ℕ} {x : Float} {v : Json}

/-- A whole number with no more digits than that is said exactly. -/
theorem toRat?_eq (h : Shows n x v) {z : ℤ} (hz : |z| < 10 ^ n) (hx : Double.valueOf x = z) :
    v.toRat? = some (z : ℚ) := by
  obtain ⟨q, hq, hround⟩ := h
  rw [hx] at hround
  rw [hq, hround.unique (Decimal.isRounded_intCast hz)]

end Shows

namespace Decimal.Layout

/-! ## Digits -/

theorem isDigits_zero : IsDigits [zero] where
  digits := List.forall_mem_singleton.2 (by decide)
  ne_nil := List.cons_ne_nil _ _

/-- A natural number is written in digits. -/
theorem isDigits_ofNat (n : Nat) : IsDigits (Text.ofNat n) :=
  ⟨Text.isDigit_of_mem_ofNat n, Text.ofNat_ne_nil n⟩

/-- Zeros may be filled in before digits. -/
theorem isDigits_padded (k : Nat) {t : Text} (h : IsDigits t) :
    IsDigits (List.replicate k zero ++ t) where
  digits b hb := by
    rcases List.mem_append.1 hb with hb | hb
    · rw [(List.mem_replicate.1 hb).2]
      exact isDigits_zero.digits zero List.mem_cons_self
    · exact h.digits b hb
  ne_nil hnil := h.ne_nil (List.append_eq_nil_iff.1 hnil).2

/-- The front of a row of digits is digits. -/
theorem isDigits_take {t : Text} (h : IsDigits t) {k : Nat} (hk : 0 < k) : IsDigits (t.take k) where
  digits b hb := h.digits b (List.mem_of_mem_take hb)
  ne_nil hnil := (List.take_eq_nil_iff.1 hnil).elim (Nat.ne_of_gt hk) h.ne_nil

/-- The digits in front of a point start as all of them do. -/
theorem head?_take {t : Text} (h : t.length = 1 ∨ t.head? ≠ some 0x30) {k : Nat} (hk : 0 < k) :
    (t.take k).length = 1 ∨ (t.take k).head? ≠ some 0x30 := by
  rw [List.head?_take, List.length_take, if_neg (Nat.ne_of_gt hk)]
  exact h.imp_left (by omega)

/-- Zeros in front of a number do not matter. -/
theorem toNat_padded (k : Nat) (t : Text) :
    Text.toNat (List.replicate k zero ++ t) = Text.toNat t := by
  induction k with
  | zero => rfl
  | succ k ih => exact ih

/-- Nothing is added when bytes are dropped from the end. -/
theorem mem_of_mem_dropEndWhile {p : UInt8 → Bool} {t : Text} {b : UInt8}
    (h : b ∈ t.dropEndWhile p) : b ∈ t := by
  rw [Text.dropEndWhile, List.mem_reverse] at h
  exact List.mem_reverse.1 (List.dropWhile_subset p h)

/-- The digits behind a point, if any are left when the zeros at the end are dropped. -/
theorem fraction_fraction {ds : Text} (h : ∀ b ∈ ds, Byte.isDigit b) :
    Fraction (fraction ds) (ds.dropEndWhile (· == zero)) := by
  rw [fraction]
  split
  case h_1 hnil =>
    rw [hnil]
    exact .none
  case h_2 ds' hne => exact .point ⟨fun b hb => h b (mem_of_mem_dropEndWhile hb), hne⟩

/-- Zeros at the end of a fraction do not matter either. -/
theorem toRat_dropEndWhile (whole ds : Text) (e : ℤ) :
    toRat ⟨Text.toNat (whole ++ ds.dropEndWhile (· == zero)),
      e - (ds.dropEndWhile (· == zero)).length⟩ =
    toRat ⟨Text.toNat (whole ++ ds), e - ds.length⟩ := by
  induction ds using List.reverseRecOn with
  | nil => rfl
  | append_singleton ds b ih =>
    rw [Text.dropEndWhile_concat]
    split_ifs with hb
    · have hzero : Byte.digitValue b = 0 := by
        rw [eq_of_beq hb]
        rfl
      rw [ih, ← List.append_assoc, Text.toNat_concat, hzero, Nat.add_zero, toRat_ten_mul,
        List.length_append, List.length_singleton]
      congr 2
      push_cast
      ring
    · rfl

/-! ## Numbers -/

/-- An exponent is written as the grammar has it, and means what it should. -/
theorem exponent_exponent (l : Layout) (e : Int) : Exponent (l.exponent e) e := by
  have hdigits := isDigits_padded (l.exponentDigits - (Text.ofNat e.natAbs).length)
    (isDigits_ofNat e.natAbs)
  have hletter : utf8 "e" = [0x65] := rfl
  have hvalue := (toNat_padded (l.exponentDigits - (Text.ofNat e.natAbs).length) _).trans
    (Text.toNat_ofNat e.natAbs)
  rw [exponent, hletter]
  split
  · have h := Exponent.power (.inl rfl) Json.Sign.minus hdigits
    rw [hvalue, Numeral.toInt, if_pos rfl, show -(e.natAbs : ℤ) = e by omega] at h
    exact h
  · have h := Exponent.power (.inl rfl) Json.Sign.plus hdigits
    rw [hvalue, Numeral.toInt, if_neg Bool.false_ne_true, show (e.natAbs : ℤ) = e by omega] at h
    exact h

/-- Digits with a point among them, and perhaps an exponent. -/
theorem exists_magnitude_of_digits {whole ds exponent : Text} {e : ℤ} {d : Decimal}
    (hw : IsDigits whole) (zero : whole.length = 1 ∨ whole.head? ≠ some 0x30)
    (hds : ∀ b ∈ ds, Byte.isDigit b) (he : Exponent exponent e)
    (hmantissa : Text.toNat (whole ++ ds) = d.mantissa) (hexponent : e - ds.length = d.exponent) :
    ∃ v, Magnitude (whole ++ fraction ds ++ exponent) v ∧ v.toRat = d.toRat := by
  refine ⟨_, .mk hw zero (fraction_fraction hds) he, ?_⟩
  rw [toRat_dropEndWhile, hmantissa, hexponent]

/-- However a decimal with all its digits is laid out, it is a number of the same value. -/
theorem exists_magnitude (l : Layout) {d : Decimal} (h : l.digits ≤ digitCount d.mantissa) :
    ∃ v, Magnitude (l.decimal d) v ∧ v.toRat = d.toRat := by
  have hdigits := isDigits_ofNat d.mantissa
  have hhead := Text.head?_ofNat d.mantissa
  have hvalue := Text.toNat_ofNat d.mantissa
  have hlength : l.digits ≤ (Text.ofNat d.mantissa).length := by
    rwa [Text.ofNat, List.length_map]
  rw [decimal]
  generalize Text.ofNat d.mantissa = digits at *
  have hpos := List.length_pos_iff.2 hdigits.ne_nil
  have hdrop : ∀ k, ∀ b ∈ digits.drop k, Byte.isDigit b :=
    fun k b hb => hdigits.digits b (List.mem_of_mem_drop hb)
  have hsplit : ∀ k, Text.toNat (digits.take k ++ digits.drop k) = d.mantissa :=
    fun k => by rw [List.take_append_drop, hvalue]
  split_ifs with hexponent hfraction
  · refine exists_magnitude_of_digits (isDigits_take hdigits Nat.one_pos)
      (head?_take hhead Nat.one_pos) (hdrop 1) (l.exponent_exponent _) (hsplit 1) ?_
    rw [List.length_drop]
    omega
  · obtain ⟨k, hk⟩ : ∃ k : ℕ, -(d.exponent + digits.length - 1) - 1 = k :=
      Int.eq_ofNat_of_zero_le (by omega)
    rw [hk, Int.toNat_natCast]
    have h := exists_magnitude_of_digits (d := d) isDigits_zero (.inl rfl)
      (isDigits_padded k hdigits).digits .none ((toNat_padded (k + 1) digits).trans hvalue) ?_
    · rwa [List.append_nil] at h
    · rw [List.length_append, List.length_replicate]
      omega
  · obtain ⟨k, hk⟩ := Int.eq_ofNat_of_zero_le (not_lt.1 hfraction)
    rw [hk, Int.toNat_natCast]
    have h := exists_magnitude_of_digits (d := d) (isDigits_take hdigits k.succ_pos)
      (head?_take hhead k.succ_pos) (hdrop (k + 1)) .none (hsplit (k + 1)) ?_
    · rwa [List.append_nil] at h
    · rw [List.length_drop]
      omega

/-! ## Doubles -/

/-- A mantissa and its exponent as a quotient of whole numbers. -/
theorem shifted_div_shifted (m : ℕ) (e : ℤ) :
    ((m <<< e.toNat : ℕ) / (1 <<< (-e).toNat : ℕ) : ℚ) = m * 2 ^ e := by
  rw [Nat.shiftLeft_eq, Nat.shiftLeft_eq, Nat.one_mul]
  obtain ⟨k, rfl | rfl⟩ := e.eq_nat_or_neg
  · rw [Int.toNat_natCast, Int.toNat_neg_natCast, zpow_natCast]
    push_cast
    rw [div_one]
  · rw [neg_neg, Int.toNat_natCast, Int.toNat_neg_natCast, zpow_neg, zpow_natCast]
    push_cast
    rw [mul_one, div_eq_mul_inv]

/-- A sign goes in front of the magnitude. -/
theorem exists_number_of_magnitude {n : ℕ} {x : Float} {s : Sign} {w : ℚ} {t : Text} {d : Decimal}
    (hx : Double.valueOf x = (s.apply 1 : ℤ) * w) (ht : Magnitude t d)
    (hd : IsRounded n w d.toRat) : ∃ v, Number (sign s ++ t) v ∧ Shows n x v := by
  cases s with
  | positive =>
    rw [Sign.apply, Int.cast_one, one_mul] at hx
    exact ⟨_, .positive ht, _, rfl, hx ▸ hd⟩
  | negative =>
    rw [Sign.apply, Int.cast_neg, Int.cast_one, neg_one_mul] at hx
    exact ⟨_, .negative ht, _, rfl, hx ▸ hd.neg⟩

/-- A finite double is written as a number that shows it. -/
theorem exists_number (l : Layout) (hl : 0 < l.digits) {x : Float} (h : x.isFinite) :
    ∃ v, Number (l.render x) v ∧ Shows l.digits x v := by
  change x.toModel.unpack.isFinite = true at h
  rw [render]
  cases hu : x.toModel.unpack with
  | infinity | notANumber =>
    rw [hu] at h
    exact Bool.noConfusion h
  | zero s =>
    refine exists_number_of_magnitude (w := 0) ?_ (.mk isDigits_zero (.inl rfl) .none .none) ?_
    · rw [Double.valueOf, hu, mul_zero]
      rfl
    · have hzero : toRat ⟨Text.toNat ([zero] ++ []), 0 - (0 : ℕ)⟩ = 0 := zero_mul _
      exact hzero.symm ▸ isRounded_zero _
  | finite s m e hm =>
    have hnum : 0 < m <<< e.toNat := by rw [Nat.shiftLeft_eq]; positivity
    have hden : 0 < 1 <<< (-e).toNat := by rw [Nat.shiftLeft_eq]; positivity
    obtain ⟨hround, hdigits⟩ := significant_spec hl hnum hden
    obtain ⟨v, hv, hvalue⟩ := exists_magnitude l hdigits
    rw [shifted_div_shifted, ← hvalue] at hround
    refine exists_number_of_magnitude ?_ hv hround
    rw [Double.valueOf, hu]
    cases s <;> simp [Double.value, Sign.apply]

/-- What is no number is one of two words, perhaps with a minus. -/
theorem exists_number_or_mem (l : Layout) (hl : 0 < l.digits) (x : Float) :
    (∃ v, Number (l.render x) v) ∨
      ∃ s, l.render x = sign s ++ utf8 "nan" ∨ l.render x = sign s ++ utf8 "inf" := by
  cases hx : x.isFinite with
  | true =>
    obtain ⟨v, hv, -⟩ := l.exists_number hl hx
    exact .inl ⟨v, hv⟩
  | false =>
    right
    change x.toModel.unpack.isFinite = false at hx
    rw [render]
    cases hu : x.toModel.unpack with
    | zero | finite =>
      rw [hu] at hx
      exact Bool.noConfusion hx
    | notANumber => exact ⟨l.nanSign, .inl rfl⟩
    | infinity s => exact ⟨s, .inr rfl⟩

end Decimal.Layout

end QueryStats
