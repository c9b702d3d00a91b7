import QueryStats.Decimal
import QueryStats.Numeral

/-! # Decimal numbers read from text -/

namespace QueryStats.Decimal

/-- The parts of a decimal number: digits, perhaps a point with digits after it, perhaps an
exponent. -/
structure Literal where
  whole : Text
  fraction : Option Text
  exponent : Option Int
deriving DecidableEq, Repr

namespace Literal

/-- Reads an exponent, which needs a digit; without one nothing is taken off the text. -/
def scanExponent : Text → Option Int × Text
  | [] => (none, [])
  | b :: t =>
    let signed := Numeral.sign t
    let digits := signed.2.takeWhile Byte.isDigit
    if (b == 0x65 || b == 0x45) && !digits.isEmpty then
      (some (Numeral.toInt ⟨signed.1, Text.toNat digits⟩), signed.2.dropWhile Byte.isDigit)
    else (none, b :: t)

/-- Reads the digits after a point; without a point nothing is taken off the text. -/
def scanFraction : Text → Option Text × Text
  | Byte.point :: t => (some (t.takeWhile Byte.isDigit), t.dropWhile Byte.isDigit)
  | t => (none, t)

/-- Reads the longest decimal number that starts with a digit, and gives what follows it. -/
def scan (t : Text) : Option (Literal × Text) :=
  let whole := t.takeWhile Byte.isDigit
  if whole.isEmpty then none
  else
    let fraction := scanFraction (t.dropWhile Byte.isDigit)
    let exponent := scanExponent fraction.2
    some (⟨whole, fraction.1, exponent.1⟩, exponent.2)

def value (l : Literal) : Decimal :=
  let fraction := l.fraction.getD []
  ⟨Text.toNat (l.whole ++ fraction), l.exponent.getD 0 - fraction.length⟩

/-- The decimal number that a text is, blanks not allowed. -/
def read? (t : Text) : Option Decimal :=
  match scan t with
  | some (l, []) => some l.value
  | _ => none

end Literal

end QueryStats.Decimal
