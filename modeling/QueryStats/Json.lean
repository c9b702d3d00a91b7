import QueryStats.Decimal

/-! # Values of the interchange format -/

namespace QueryStats

/-- A value of the interchange format.  Members keep their order, numbers every digit. -/
inductive Json where
  | null
  | boolean (b : Bool)
  | number (negative : Bool) (magnitude : Decimal)
  | text (t : Text)
  | array (items : List Json)
  | object (members : List (Text × Json))

end QueryStats
