import QueryStats.Text

/-! # Whole numbers read from text -/

namespace QueryStats

/-- A decimal numeral: an optional sign and at least one digit. -/
structure Numeral where
  negative : Bool
  magnitude : Nat
deriving DecidableEq, Repr

namespace Numeral

/-- Takes at most one sign off the front of a text; the flag is set by a minus. -/
def sign : Text → Bool × Text
  | Byte.minus :: t => (true, t)
  | Byte.plus :: t => (false, t)
  | t => (false, t)

/-- Reads a numeral after leading blanks and gives what follows its last digit. -/
def scan (t : Text) : Option (Numeral × Text) :=
  let signed := sign (Text.trimStart t)
  let digits := signed.2.takeWhile Byte.isDigit
  if digits.isEmpty then none
  else some (⟨signed.1, Text.toNat digits⟩, signed.2.dropWhile Byte.isDigit)

def toInt (n : Numeral) : Int := if n.negative then -(n.magnitude : Int) else n.magnitude

/-- The numeral as a word of 64 bits.  The magnitude must fit; a minus then wraps round. -/
def toWord? (n : Numeral) : Option UInt64 :=
  if n.magnitude < UInt64.size then
    some (if n.negative then -UInt64.ofNat n.magnitude else UInt64.ofNat n.magnitude)
  else none

/-- The numeral as an integer, if a signed word of 32 bits holds it. -/
def toInt32? (n : Numeral) : Option Int :=
  if -0x80000000 ≤ n.toInt ∧ n.toInt < 0x80000000 then some n.toInt else none

/-- Reads an integer of 32 bits after leading blanks and gives what follows its last digit. -/
def scanInt32 (t : Text) : Option (Int × Text) :=
  (scan t).bind fun p => p.1.toInt32?.map (·, p.2)

end Numeral

end QueryStats
