import QueryStats.Decimal

/-! # Rounding a quotient to a number of significant digits -/

namespace QueryStats.Decimal

/-- `num / den` rounded to the nearest integer, a half going to the even neighbour. -/
def roundDiv (num den : Nat) : Nat :=
  let quotient := num / den
  let twice := 2 * (num % den)
  if twice < den ∨ (twice = den ∧ quotient % 2 = 0) then quotient else quotient + 1

def digitCount (n : Nat) : Nat := (Nat.toDigits 10 n).length

/-- The `k` with `10 ^ k ≤ num / den < 10 ^ (k + 1)`. -/
def decade (num den : Nat) : Int :=
  if den ≤ num then digitCount (num / den) - 1
  else
    let places := digitCount (den / num)
    if den = num * Nat.pow 10 (places - 1) then 1 - places else -places

/-- The decimal with `n` digits nearest to `num / den`, a tie going to the even one. -/
def significant (n num den : Nat) : Decimal :=
  let exponent := decade num den + 1 - n
  let mantissa :=
    if 0 ≤ exponent then roundDiv num (den * Nat.pow 10 exponent.toNat)
    else roundDiv (num * Nat.pow 10 (-exponent).toNat) den
  if mantissa = Nat.pow 10 n then ⟨Nat.pow 10 (n - 1), exponent + 1⟩ else ⟨mantissa, exponent⟩

/-! ## Laws of the rounded quotient -/

/-- The rounded quotient is at most a half away. -/
theorem roundDiv_near (num : Nat) {den : Nat} (h : 0 < den) :
    2 * num ≤ 2 * den * roundDiv num den + den ∧ 2 * den * roundDiv num den ≤ 2 * num + den := by
  have hd := Nat.div_add_mod num den
  have hm := Nat.mod_lt num h
  simp only [roundDiv]
  generalize num / den = q at *
  generalize num % den = r at *
  subst hd
  have hq : 2 * den * q = 2 * (den * q) := Nat.mul_assoc ..
  have hs : 2 * den * (q + 1) = 2 * (den * q) + 2 * den := by rw [Nat.mul_add, hq, Nat.mul_one]
  split <;> omega

/-- A quotient halfway between two numbers goes to the even one. -/
theorem roundDiv_tie_even {num den : Nat} (h : 2 * (num % den) = den) :
    roundDiv num den % 2 = 0 := by
  simp only [roundDiv]
  split <;> omega

end QueryStats.Decimal
