import QueryStats.Text

/-! # Decimal values -/

namespace QueryStats

/-- The value `mantissa * 10 ^ exponent`. -/
structure Decimal where
  mantissa : Nat
  exponent : Int
deriving DecidableEq, Repr

namespace Decimal

/-- The nearest double, a value halfway between two going to the even one; infinite when the value
is too large. -/
def toFloat (d : Decimal) : Float :=
  Float.ofScientific d.mantissa (d.exponent < 0) d.exponent.natAbs

end Decimal

end QueryStats
