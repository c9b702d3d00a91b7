import QueryStats.Json.Reader
import QueryStats.Proofs.Digits

/-!
# Quoted texts and numbers

The grammar of the interchange format for what has no parts: which bytes spell which text or number.
The reader finds the text or the number, and stops where it ends.

Bytes from 0x80 up stand for themselves, as any other byte that needs no escape does: a text need
not be valid in any encoding.
-/

namespace QueryStats.Json

/-! ## Quoted texts -/

/-- The letters that may follow a backslash, each with the byte that the two of them stand for. -/
def escapes : List (UInt8 × UInt8) :=
  [(Byte.quote, Byte.quote), (Byte.backslash, Byte.backslash), (Byte.slash, Byte.slash),
    (0x62, 0x08), (0x66, 0x0c), (0x6e, Byte.newline), (0x72, Byte.carriageReturn),
    (0x74, Byte.tab)]

/-- A digit of base sixteen, in upper or lower case. -/
def IsHex (b : UInt8) (n : Nat) : Prop :=
  (utf8 "0123456789abcdef")[n]? = some b ∨ (utf8 "0123456789ABCDEF")[n]? = some b

/-- A backslash, the letter `u` and four digits. -/
inductive Numbered : Text → Nat → Prop
  | mk {a b c d : UInt8} {i j k l : Nat} (ha : IsHex a i) (hb : IsHex b j) (hc : IsHex c k)
      (hd : IsHex d l) :
    Numbered [Byte.backslash, 0x75, a, b, c, d] (((i * 16 + j) * 16 + k) * 16 + l)

/-- The character that two halves of a pair number. -/
def paired (high low : Nat) : Char :=
  Char.ofNat (0x10000 + (high - 0xd800) * 0x400 + (low - 0xdc00))

/-- What stands between two quotes, and the text that it means. -/
inductive Characters : Text → Text → Prop
  | nil : Characters [] []
  | byte {b : UInt8} {t u : Text} (control : 0x20 ≤ b) (quote : b ≠ Byte.quote)
      (backslash : b ≠ Byte.backslash) (ht : Characters t u) : Characters (b :: t) (b :: u)
  | escaped {a b : UInt8} {t u : Text} (h : (a, b) ∈ escapes) (ht : Characters t u) :
    Characters (Byte.backslash :: a :: t) (b :: u)
  | unit {s t u : Text} {n : Nat} (hs : Numbered s n) (h : ¬(isHigh n ∨ isLow n))
      (ht : Characters t u) : Characters (s ++ t) (String.utf8EncodeChar (Char.ofNat n) ++ u)
  | pair {s s' t u : Text} {n m : Nat} (hs : Numbered s n) (hs' : Numbered s' m) (hn : isHigh n)
      (hm : isLow m) (ht : Characters t u) :
    Characters (s ++ s' ++ t) (String.utf8EncodeChar (paired n m) ++ u)

/-- A digit of base sixteen has its value, in either case. -/
theorem IsHex.hexValue? {b : UInt8} {n : Nat} (h : IsHex b n) : hexValue? b = some n := by
  have hn : n < 16 := by
    obtain h | h := h <;> exact (List.getElem?_eq_some_iff.1 h).1
  have hlower : ∀ n < 16, ((utf8 "0123456789abcdef")[n]?.bind Json.hexValue?) = some n := by decide
  have hupper : ∀ n < 16, ((utf8 "0123456789ABCDEF")[n]?.bind Json.hexValue?) = some n := by decide
  obtain h | h := h
  · simpa [h] using hlower n hn
  · simpa [h] using hupper n hn

/-- An escape with four digits is read as the unit that it numbers. -/
theorem Numbered.scanPieces {s : Text} {n : Nat} (h : Numbered s n) (t : Text) :
    Json.scanPieces (s ++ t) = (Json.scanPieces t).map fun p => (.unit n :: p.1, p.2) := by
  cases h with
  | @mk a b c d i j k l ha hb hc hd =>
    have hu : unit? a b c d = some (.unit (((i * 16 + j) * 16 + k) * 16 + l)) := by
      simp [unit?, ha.hexValue?, hb.hexValue?, hc.hexValue?, hd.hexValue?]
    calc Json.scanPieces (Byte.backslash :: 0x75 :: a :: b :: c :: d :: t)
      _ = (unit? a b c d).bind fun u => (Json.scanPieces t).map fun p => (u :: p.1, p.2) := rfl
      _ = _ := by rw [hu, Option.bind_some]

/-- An escaped letter is read as the byte that it stands for. -/
theorem scanPieces_escaped {a b : UInt8} (h : (a, b) ∈ escapes) (t : Text) :
    scanPieces (Byte.backslash :: a :: t) = (scanPieces t).map fun p => (.byte b :: p.1, p.2) := by
  simp only [escapes, List.mem_cons, Prod.mk.injEq, List.not_mem_nil, or_false] at h
  obtain ⟨rfl, rfl⟩ | ⟨rfl, rfl⟩ | ⟨rfl, rfl⟩ | ⟨rfl, rfl⟩ | ⟨rfl, rfl⟩ | ⟨rfl, rfl⟩ | ⟨rfl, rfl⟩ |
    ⟨rfl, rfl⟩ := h <;> rfl

/-- Any other byte is read as itself. -/
theorem scanPieces_byte {b : UInt8} (control : 0x20 ≤ b) (quote : b ≠ Byte.quote)
    (backslash : b ≠ Byte.backslash) (t : Text) :
    scanPieces (b :: t) = (scanPieces t).map fun p => (.byte b :: p.1, p.2) := by
  have h : ¬(b < 0x20 ∨ b = Byte.backslash) := by
    simpa [backslash] using control
  rw [scanPieces]
  · exact if_neg h
  all_goals simp_all

/-- A unit that is no half of a pair is a character of its own. -/
theorem ofPieces?_unit {n : Nat} (h : ¬(isHigh n ∨ isLow n)) (ps : List Piece) :
    ofPieces? (.unit n :: ps)
      = (ofPieces? ps).map (String.utf8EncodeChar (Char.ofNat n) ++ ·) := by
  obtain ⟨hn, hm⟩ := not_or.1 h
  cases ps with
  | nil => simp [ofPieces?, hn, hm]
  | cons p ps => cases p <;> simp [ofPieces?, hn, hm]

/-- Two halves of a pair are one character. -/
theorem ofPieces?_pair {n m : Nat} (hn : isHigh n) (hm : isLow m) (ps : List Piece) :
    ofPieces? (.unit n :: .unit m :: ps)
      = (ofPieces? ps).map (String.utf8EncodeChar (paired n m) ++ ·) := by
  simp [ofPieces?, hn, hm, paired]

/-- What stands between two quotes is read piece by piece, and the pieces make up what it means. -/
theorem Characters.scanPieces {t u : Text} (h : Characters t u) (rest : Text) :
    ∃ ps, Json.scanPieces (t ++ Byte.quote :: rest) = some (ps, rest) ∧ ofPieces? ps = some u := by
  induction h with
  | nil => exact ⟨[], rfl, rfl⟩
  | @byte b t u control quote backslash _ ih =>
    obtain ⟨ps, hps, hu⟩ := ih
    exact ⟨.byte b :: ps, by simp [scanPieces_byte control quote backslash, hps],
      by simp [ofPieces?, hu]⟩
  | @escaped a b t u hb _ ih =>
    obtain ⟨ps, hps, hu⟩ := ih
    exact ⟨.byte b :: ps, by simp [scanPieces_escaped hb, hps], by simp [ofPieces?, hu]⟩
  | @unit s t u n hs hn _ ih =>
    obtain ⟨ps, hps, hu⟩ := ih
    exact ⟨.unit n :: ps, by simp [hs.scanPieces, hps], by simp [ofPieces?_unit hn, hu]⟩
  | @pair s s' t u n m hs hs' hn hm _ ih =>
    obtain ⟨ps, hps, hu⟩ := ih
    exact ⟨.unit n :: .unit m :: ps, by simp [hs.scanPieces, hs'.scanPieces, hps],
      by simp [ofPieces?_pair hn hm, hu]⟩

/-- A quoted text ends at the quote that closes it, and not before. -/
theorem Characters.scanQuoted {t u : Text} (h : Characters t u) (rest : Text) :
    Json.scanQuoted (t ++ Byte.quote :: rest) = some (u, rest) := by
  obtain ⟨ps, hps, hu⟩ := h.scanPieces rest
  simp [Json.scanQuoted, hps, hu]

/-! ## Numbers -/

/-- One digit or more. -/
structure IsDigits (t : Text) : Prop where
  digits : ∀ b ∈ t, Byte.isDigit b
  ne_nil : t ≠ []

/-- A point and the digits behind it, of which there may be none; the point may be missing too. -/
inductive Places (digit : UInt8 → Bool) : Text → Option Text → Prop
  | none : Places digit [] none
  | point {ds : Text} (h : ∀ b ∈ ds, digit b) : Places digit (Byte.point :: ds) (some ds)

/-- What may stand after the whole part of a number: the digits behind a point. -/
inductive Fraction : Text → Text → Prop
  | none : Fraction [] []
  | point {ds : Text} (h : IsDigits ds) : Fraction (Byte.point :: ds) ds

/-- The sign of an exponent, which may be missing; the flag is set by a minus. -/
inductive Sign : Text → Bool → Prop
  | none : Sign [] false
  | plus : Sign [Byte.plus] false
  | minus : Sign [Byte.minus] true

/-- The power of ten at the end of a number. -/
inductive Exponent : Text → Int → Prop
  | none : Exponent [] 0
  | power {b : UInt8} {s ds : Text} {negative : Bool} (hb : b = 0x65 ∨ b = 0x45)
      (hs : Sign s negative) (h : IsDigits ds) :
    Exponent (b :: (s ++ ds)) (Numeral.toInt ⟨negative, Text.toNat ds⟩)

/-- A number without its sign.  A whole part of more than one digit has no zero in front. -/
inductive Magnitude : Text → Decimal → Prop
  | mk {whole fraction ds exponent : Text} {e : Int} (hw : IsDigits whole)
      (zero : whole.length = 1 ∨ whole.head? ≠ some 0x30) (hf : Fraction fraction ds)
      (he : Exponent exponent e) :
    Magnitude (whole ++ fraction ++ exponent) ⟨Text.toNat (whole ++ ds), e - ds.length⟩

/-- A byte that goes on with a number. -/
def isNumeric (b : UInt8) : Bool := Byte.isDigit b || b == Byte.point || b == 0x65 || b == 0x45

/-- A text that does not go on with a number that ends before it. -/
def Delimits (rest : Text) : Prop := rest.head?.all (!isNumeric ·)

/-- A number with its sign. -/
inductive Number : Text → Json → Prop
  | positive {t : Text} {d : Decimal} (h : Magnitude t d) : Number t (.number false d)
  | negative {t : Text} {d : Decimal} (h : Magnitude t d) :
    Number (Byte.minus :: t) (.number true d)

section

variable {t ds whole fraction exponent rest : Text} {d : Decimal} {e : Int} {b : UInt8}

/-- There is a first digit. -/
theorem IsDigits.exists_cons (h : IsDigits ds) : ∃ b t, ds = b :: t ∧ Byte.isDigit b := by
  obtain ⟨b, t, rfl⟩ := List.exists_cons_of_ne_nil h.ne_nil
  exact ⟨b, t, rfl, h.digits b List.mem_cons_self⟩

/-- Digits have no sign. -/
theorem IsDigits.sign_append (h : IsDigits ds) (rest : Text) :
    Numeral.sign (ds ++ rest) = (false, ds ++ rest) := by
  obtain ⟨b, t, rfl, hb⟩ := h.exists_cons
  rw [List.cons_append, Numeral.sign]
  all_goals
    rintro u hu
    obtain ⟨rfl, -⟩ := List.cons.inj hu
    exact absurd hb (by decide)

/-- A sign is read off the digits behind it. -/
theorem Sign.sign_append {s : Text} {negative : Bool} (hs : Sign s negative) (h : IsDigits ds)
    (rest : Text) : Numeral.sign (s ++ (ds ++ rest)) = (negative, ds ++ rest) := by
  cases hs with
  | none => exact h.sign_append rest
  | plus => rfl
  | minus => rfl

/-- A number ends before a byte that cannot go on with it. -/
theorem delimits_cons (h : ¬isNumeric b) (t : Text) : Delimits (b :: t) := by
  simpa [Delimits] using h

/-- A number does not end before a digit. -/
theorem Delimits.notDigit (h : Delimits rest) : rest.head?.all (!Byte.isDigit ·) := by
  cases rest with
  | nil => rfl
  | cons b rest => simp_all [Delimits, isNumeric]

/-- No digit follows the part before an exponent. -/
theorem Exponent.notDigit (h : Exponent exponent e) (hrest : Delimits rest) :
    (exponent ++ rest).head?.all (!Byte.isDigit ·) := by
  cases h with
  | none => exact hrest.notDigit
  | power hb => obtain rfl | rfl := hb <;> rfl

/-- Nor does a point. -/
theorem Exponent.notPoint (h : Exponent exponent e) (hrest : Delimits rest) :
    (exponent ++ rest).head?.all (· != Byte.point) := by
  cases h with
  | none => cases rest <;> simp_all [Delimits, isNumeric]
  | power hb => obtain rfl | rfl := hb <;> rfl

/-- An exponent is read up to its end, with its value. -/
theorem Exponent.scanExponent (h : Exponent exponent e) (hrest : Delimits rest) :
    ∃ e?, Decimal.Literal.scanExponent (exponent ++ rest) = (e?, rest) ∧ e?.getD 0 = e := by
  cases h with
  | none => cases rest <;> simp_all [Delimits, isNumeric, Decimal.Literal.scanExponent]
  | power hb hs h =>
    obtain ⟨htake, hdrop⟩ := takeWhile_append_dropWhile h.digits hrest.notDigit
    simp [Decimal.Literal.scanExponent, hs.sign_append h, htake, hdrop, h.ne_nil, hb]

/-- A fraction is read up to its end. -/
theorem Places.scanFraction {ds? : Option Text} (h : Places Byte.isDigit fraction ds?)
    (digit : rest.head?.all (!Byte.isDigit ·)) (point : rest.head?.all (· != Byte.point)) :
    Decimal.Literal.scanFraction (fraction ++ rest) = (ds?, rest) := by
  cases h with
  | none =>
    rw [List.nil_append, Decimal.Literal.scanFraction]
    rintro t rfl
    exact Bool.noConfusion (point : (Byte.point != Byte.point) = true)
  | @point ds h =>
    obtain ⟨htake, hdrop⟩ := takeWhile_append_dropWhile h digit
    exact Prod.ext (congrArg some htake) hdrop

/-- No digit follows the whole part of a number. -/
theorem Places.notDigit {ds? : Option Text} (h : Places Byte.isDigit fraction ds?)
    (digit : rest.head?.all (!Byte.isDigit ·)) :
    (fraction ++ rest).head?.all (!Byte.isDigit ·) := by
  cases h with
  | none => exact digit
  | point => rfl

/-- A fraction has digits behind its point if it has a point. -/
theorem Fraction.exists_places (h : Fraction fraction ds) :
    ∃ ds?, Places Byte.isDigit fraction ds? ∧ ds?.getD [] = ds ∧ ds? ≠ some [] := by
  cases h with
  | none => exact ⟨Option.none, .none, rfl, nofun⟩
  | point h => exact ⟨some ds, .point h.digits, rfl, fun e => h.ne_nil (Option.some.inj e)⟩

/-- A literal ends where the next byte cannot go on with it. -/
theorem scan_append {ds? : Option Text} (hw : IsDigits whole)
    (hp : Places Byte.isDigit fraction ds?) (he : Exponent exponent e) (hrest : Delimits rest) :
    ∃ e?, Decimal.Literal.scan (whole ++ fraction ++ exponent ++ rest) =
      some (⟨whole, ds?, e?⟩, rest) ∧ e?.getD 0 = e := by
  have hdigit := he.notDigit hrest
  obtain ⟨e?, hscan, rfl⟩ := he.scanExponent hrest
  have hfraction := hp.scanFraction hdigit (he.notPoint hrest)
  obtain ⟨htake, hdrop⟩ := takeWhile_append_dropWhile hw.digits (hp.notDigit hdigit)
  refine ⟨e?, ?_, rfl⟩
  simp [Decimal.Literal.scan, htake, hdrop, hfraction, hscan, hw.ne_nil]

/-- A number without its sign is read up to its end, with its value. -/
theorem Magnitude.scan (h : Magnitude t d) (hrest : Delimits rest) :
    ∃ l, Decimal.Literal.scan (t ++ rest) = some (l, rest) ∧ isPlain l ∧ l.value = d := by
  cases h with
  | @mk whole fraction ds exponent e hw zero hf he =>
    obtain ⟨ds?, hp, rfl, hds⟩ := hf.exists_places
    obtain ⟨e?, hscan, rfl⟩ := scan_append hw hp he hrest
    refine ⟨⟨whole, ds?, e?⟩, hscan, ?_, rfl⟩
    simpa [isPlain, hds] using zero

/-- A number without its sign starts with a digit. -/
theorem Magnitude.exists_cons (h : Magnitude t d) : ∃ b u, t = b :: u ∧ Byte.isDigit b := by
  cases h with
  | mk hw =>
    obtain ⟨b, u, rfl, hb⟩ := hw.exists_cons
    exact ⟨b, _, rfl, hb⟩

/-- A number is read up to its end, with its sign and its value. -/
theorem Number.scanNumber {v : Json} (h : Number t v) (hrest : Delimits rest) :
    Json.scanNumber (t ++ rest) = some (v, rest) := by
  cases h with
  | positive h =>
    obtain ⟨l, hscan, hplain, rfl⟩ := h.scan hrest
    obtain ⟨b, u, rfl, hb⟩ := h.exists_cons
    have hminus : b ≠ Byte.minus := by rintro rfl; exact absurd hb (by decide)
    simp_all [Json.scanNumber]
  | negative h =>
    obtain ⟨l, hscan, hplain, rfl⟩ := h.scan hrest
    simp [Json.scanNumber, hscan, hplain]

end

end QueryStats.Json
