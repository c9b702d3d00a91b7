/-! # Arithmetic of the statistics -/

namespace QueryStats

/-- The arithmetic that statistics are kept in.  The service runs on doubles; on another carrier
the same definitions say what they compute without rounding. -/
class Scalar (α : Type) extends Zero α, One α, Add α, Sub α, Mul α, Div α where
  thousand : α
  isPositive : α → Bool
  isZero : α → Bool

/-- Nothing compares with a double that is not a number: it is neither positive nor zero. -/
instance : Scalar Float where
  zero := 0
  one := 1
  thousand := 1000
  isPositive x := 0 < x
  isZero x := x == 0

instance : Scalar Rat where
  zero := Rat.ofInt 0
  one := Rat.ofInt 1
  add := Rat.add
  sub := Rat.sub
  mul := Rat.mul
  div := Rat.div
  thousand := Rat.ofInt 1000
  isPositive x := 0 < x.num
  isZero x := x.num == 0

end QueryStats
