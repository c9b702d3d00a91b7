import QueryStats.Decimal.Literal
import QueryStats.Json.Quoted

/-! # Reading values -/

namespace QueryStats.Json

def isBlank (b : UInt8) : Bool :=
  b == 0x20 || b == Byte.tab || b == Byte.newline || b == Byte.carriageReturn

def skipBlanks (t : Text) : Text := t.dropWhile isBlank

/-- What follows `word` at the front of a text. -/
def expect? (word t : Text) : Option Text :=
  if word.isPrefixOf t then some (t.drop word.length) else none

/-- No leading zero, and a digit after a point. -/
def isPlain (l : Decimal.Literal) : Bool :=
  (l.whole.length == 1 || l.whole.head? != some 0x30) && l.fraction != some []

def scanNumber (t : Text) : Option (Json × Text) :=
  let negative := t.head? == some Byte.minus
  match Decimal.Literal.scan (if negative then t.tail else t) with
  | some (l, rest) => if isPlain l then some (number negative l.value, rest) else none
  | none => none

def scanWord (t : Text) : Option (Json × Text) :=
  (expect? (utf8 "null") t).map (null, ·)
    <|> (expect? (utf8 "true") t).map (boolean true, ·)
    <|> (expect? (utf8 "false") t).map (boolean false, ·)

mutual

/-- Reads a value after leading blanks, and gives what follows it. -/
def scanValue : Nat → Text → Option (Json × Text)
  | 0, _ => none
  | fuel + 1, t =>
    match skipBlanks t with
    | Byte.quote :: t => (scanQuoted t).map fun p => (text p.1, p.2)
    | Byte.openBracket :: t =>
      match skipBlanks t with
      | Byte.closeBracket :: t => some (array [], t)
      | t => (scanItems fuel t).map fun p => (array p.1, p.2)
    | Byte.openBrace :: t =>
      match skipBlanks t with
      | Byte.closeBrace :: t => some (object [], t)
      | t => (scanMembers fuel t).map fun p => (object p.1, p.2)
    | t => scanWord t <|> scanNumber t

/-- Reads the items of an array up to its closing bracket. -/
def scanItems : Nat → Text → Option (List Json × Text)
  | 0, _ => none
  | fuel + 1, t =>
    (scanValue fuel t).bind fun v =>
      match skipBlanks v.2 with
      | Byte.closeBracket :: t => some ([v.1], t)
      | Byte.comma :: t => (scanItems fuel t).map fun p => (v.1 :: p.1, p.2)
      | _ => none

/-- Reads the members of an object up to its closing brace. -/
def scanMembers : Nat → Text → Option (List (Text × Json) × Text)
  | 0, _ => none
  | fuel + 1, t =>
    match skipBlanks t with
    | Byte.quote :: t =>
      (scanQuoted t).bind fun k =>
        match skipBlanks k.2 with
        | Byte.colon :: t =>
          (scanValue fuel t).bind fun v =>
            match skipBlanks v.2 with
            | Byte.closeBrace :: t => some ([(k.1, v.1)], t)
            | Byte.comma :: t => (scanMembers fuel t).map fun p => ((k.1, v.1) :: p.1, p.2)
            | _ => none
        | _ => none
    | _ => none

end

/-- The value that a text is, blanks around it allowed.  Two steps for each byte are enough. -/
def read? (t : Text) : Option Json :=
  (scanValue (2 * t.length + 2) t).bind fun p =>
    if (skipBlanks p.2).isEmpty then some p.1 else none

end QueryStats.Json
