import QueryStats.Decimal.Rounding

/-! # Doubles written in decimal -/

namespace QueryStats.Decimal

open Float.Model.UnpackedFloat (Sign)

/-- How a double is written with a fixed number of significant digits. -/
structure Layout where
  /-- how many digits are kept; trailing zeros are then dropped -/
  digits : Nat
  /-- decades from this one up to the number of digits are written without an exponent -/
  lowest : Int
  /-- the least number of digits of an exponent -/
  exponentDigits : Nat
  /-- the sign in front of a NaN, of which a double itself knows nothing -/
  nanSign : Sign

namespace Layout

def zero : UInt8 := 0x30

/-- The digits after the point; no digit, no point. -/
def fraction (digits : Text) : Text :=
  match digits.dropEndWhile (· == zero) with
  | [] => []
  | ds => Byte.point :: ds

/-- The exponent with its sign, filled up with zeros. -/
def exponent (l : Layout) (e : Int) : Text :=
  let digits := Text.ofNat e.natAbs
  utf8 "e" ++ (if e < 0 then Byte.minus else Byte.plus)
    :: (List.replicate (l.exponentDigits - digits.length) zero ++ digits)

def decimal (l : Layout) (d : Decimal) : Text :=
  let digits := Text.ofNat d.mantissa
  let decade := d.exponent + digits.length - 1
  if decade < l.lowest ∨ l.digits ≤ decade then
    digits.take 1 ++ fraction (digits.drop 1) ++ l.exponent decade
  else if decade < 0 then
    zero :: fraction (List.replicate (-decade - 1).toNat zero ++ digits)
  else
    digits.take (decade.toNat + 1) ++ fraction (digits.drop (decade.toNat + 1))

def sign : Sign → Text
  | .positive => []
  | .negative => [Byte.minus]

/-- The text of a double: its value rounded to the digits of the layout.  Zeros and infinities keep
their sign. -/
def render (l : Layout) (x : Float) : Text :=
  match x.toModel.unpack with
  | .notANumber => sign l.nanSign ++ utf8 "nan"
  | .infinity s => sign s ++ utf8 "inf"
  | .zero s => sign s ++ [zero]
  | .finite s m e _ =>
    sign s ++ l.decimal (significant l.digits (m <<< e.toNat) (1 <<< (-e).toNat))

end Layout

end QueryStats.Decimal
