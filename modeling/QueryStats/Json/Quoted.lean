import QueryStats.Json

/-! # Quoted texts -/

namespace QueryStats.Json

/-- The written form of a byte.  Quotes, backslashes and control bytes are escaped. -/
def escapeByte (b : UInt8) : Text :=
  if b = Byte.quote then utf8 "\\\""
  else if b = Byte.backslash then utf8 "\\\\"
  else if b = Byte.newline then utf8 "\\n"
  else if b = Byte.carriageReturn then utf8 "\\r"
  else if b = Byte.tab then utf8 "\\t"
  else if b < 0x20 then utf8 "\\u00" ++ [Byte.ofDigit (b.toNat / 16), Byte.ofDigit (b.toNat % 16)]
  else [b]

def escape (t : Text) : Text := t.flatMap escapeByte

/-- A text between quotes. -/
def quoted (t : Text) : Text := Byte.quote :: (escape t ++ [Byte.quote])

@[simp] theorem escape_nil : escape [] = [] := rfl
@[simp] theorem escape_cons (b : UInt8) (t : Text) : escape (b :: t) = escapeByte b ++ escape t :=
  rfl

/-! ## Reading -/

/-- A piece of a quoted text: a byte that stands for itself, or a numbered unit of 16 bits. -/
inductive Piece where
  | byte (b : UInt8)
  | unit (n : Nat)
deriving DecidableEq, Repr

def hexValue? (b : UInt8) : Option Nat :=
  if Byte.isDigit b then some (Byte.digitValue b)
  else if 0x41 ≤ b && b ≤ 0x46 then some (b.toNat - 0x41 + 10)
  else if 0x61 ≤ b && b ≤ 0x66 then some (b.toNat - 0x61 + 10)
  else none

/-- The unit that four digits of base sixteen number. -/
def unit? (a b c d : UInt8) : Option Piece := do
  let a ← hexValue? a
  let b ← hexValue? b
  let c ← hexValue? c
  let d ← hexValue? d
  return .unit (((a * 16 + b) * 16 + c) * 16 + d)

/-- The byte that a single letter after a backslash stands for. -/
def escaped? (b : UInt8) : Option Piece :=
  if b = Byte.quote ∨ b = Byte.backslash ∨ b = Byte.slash then some (.byte b)
  else if b = 0x62 then some (.byte 0x08)
  else if b = 0x66 then some (.byte 0x0c)
  else if b = 0x6e then some (.byte Byte.newline)
  else if b = 0x72 then some (.byte Byte.carriageReturn)
  else if b = 0x74 then some (.byte Byte.tab)
  else none

/-- Reads the pieces up to the closing quote, and gives what follows it. -/
def scanPieces : Text → Option (List Piece × Text)
  | [] => none
  | Byte.quote :: t => some ([], t)
  | Byte.backslash :: 0x75 :: a :: b :: c :: d :: t =>
    (unit? a b c d).bind fun u => (scanPieces t).map fun p => (u :: p.1, p.2)
  | Byte.backslash :: b :: t =>
    (escaped? b).bind fun u => (scanPieces t).map fun p => (u :: p.1, p.2)
  | b :: t =>
    if b < 0x20 ∨ b = Byte.backslash then none
    else (scanPieces t).map fun p => (.byte b :: p.1, p.2)

def isHigh (n : Nat) : Bool := 0xd800 ≤ n && n < 0xdc00

def isLow (n : Nat) : Bool := 0xdc00 ≤ n && n < 0xe000

/-- The text of pieces.  Two halves of a pair stand for one character; a half by itself is
refused. -/
def ofPieces? : List Piece → Option Text
  | [] => some []
  | .byte b :: ps => (ofPieces? ps).map (b :: ·)
  | .unit n :: .unit m :: ps =>
    if isHigh n && isLow m then
      (ofPieces? ps).map
        (String.utf8EncodeChar (Char.ofNat (0x10000 + (n - 0xd800) * 0x400 + (m - 0xdc00))) ++ ·)
    else if isHigh n || isLow n then none
    else (ofPieces? (.unit m :: ps)).map (String.utf8EncodeChar (Char.ofNat n) ++ ·)
  | .unit n :: ps =>
    if isHigh n || isLow n then none
    else (ofPieces? ps).map (String.utf8EncodeChar (Char.ofNat n) ++ ·)

/-- Reads a text after its opening quote, and gives what follows the closing one. -/
def scanQuoted (t : Text) : Option (Text × Text) :=
  (scanPieces t).bind fun p => (ofPieces? p.1).map (·, p.2)

end QueryStats.Json
