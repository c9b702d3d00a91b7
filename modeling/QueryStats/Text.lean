/-! # Texts as bytes -/

namespace QueryStats

/-- A text is a sequence of bytes in no particular encoding.  Texts compare byte by byte, a byte
counting as an unsigned number. -/
abbrev Text := List UInt8

/-- The bytes of a string constant. -/
def utf8 (s : String) : Text := s.toByteArray.data.toList

/-- Strings are told apart by their bytes. -/
@[simp] theorem utf8_inj {s t : String} : utf8 s = utf8 t ↔ s = t := by
  rw [utf8, utf8, Array.toList_inj, ← ByteArray.ext_iff, String.toByteArray_inj]

namespace Byte

@[match_pattern] abbrev tab : UInt8 := 0x09
@[match_pattern] abbrev newline : UInt8 := 0x0a
@[match_pattern] abbrev carriageReturn : UInt8 := 0x0d
@[match_pattern] abbrev quote : UInt8 := 0x22
@[match_pattern] abbrev plus : UInt8 := 0x2b
@[match_pattern] abbrev minus : UInt8 := 0x2d
@[match_pattern] abbrev point : UInt8 := 0x2e
@[match_pattern] abbrev slash : UInt8 := 0x2f
@[match_pattern] abbrev equals : UInt8 := 0x3d
@[match_pattern] abbrev comma : UInt8 := 0x2c
@[match_pattern] abbrev colon : UInt8 := 0x3a
@[match_pattern] abbrev backslash : UInt8 := 0x5c
@[match_pattern] abbrev openBracket : UInt8 := 0x5b
@[match_pattern] abbrev closeBracket : UInt8 := 0x5d
@[match_pattern] abbrev openBrace : UInt8 := 0x7b
@[match_pattern] abbrev closeBrace : UInt8 := 0x7d

/-- The space and the five control bytes from the tab to the carriage return. -/
def isBlank (b : UInt8) : Bool := b == 0x20 || (0x09 ≤ b && b ≤ 0x0d)

def isDigit (b : UInt8) : Bool := 0x30 ≤ b && b ≤ 0x39

/-- The value of a decimal digit. -/
def digitValue (b : UInt8) : Nat := b.toNat - 0x30

/-- The digit of a value below sixteen, letters in lower case. -/
def ofDigit (n : Nat) : UInt8 := (Nat.digitChar n).toUInt8

end Byte

namespace Text

/-- Texts are compared byte by byte. -/
theorem compare_eq_lt {s t : Text} : compare s t = .lt ↔ s < t := by
  induction s generalizing t with
  | nil =>
    cases t with
    | nil => decide
    | cons b t => simp [List.compare_nil_cons]
  | cons a s ih =>
    cases t with
    | nil => simp [List.compare_cons_nil]
    | cons b t =>
      rw [List.compare_cons_cons, Ordering.then_eq_lt, Std.compare_eq_lt, Std.compare_eq_iff_eq, ih,
        List.cons_lt_cons_iff]

/-! ## Blanks at the edges -/

/-- Drops bytes from the end for as long as `p` holds. -/
def dropEndWhile (p : UInt8 → Bool) (t : Text) : Text := (t.reverse.dropWhile p).reverse

@[simp] theorem dropEndWhile_nil (p : UInt8 → Bool) : dropEndWhile p [] = [] := rfl

/-- The last byte decides whether anything is dropped. -/
theorem dropEndWhile_concat (p : UInt8 → Bool) (t : Text) (b : UInt8) :
    dropEndWhile p (t ++ [b]) = if p b then dropEndWhile p t else t ++ [b] := by
  by_cases h : p b <;> simp [dropEndWhile, h]

def trimStart (t : Text) : Text := t.dropWhile Byte.isBlank

def trimEnd (t : Text) : Text := t.dropEndWhile Byte.isBlank

def trim (t : Text) : Text := (trimStart t).trimEnd

@[simp] theorem trimStart_nil : trimStart [] = [] := rfl
@[simp] theorem trimEnd_nil : trimEnd [] = [] := rfl
@[simp] theorem trim_nil : trim [] = [] := rfl

/-- Nothing is trimmed in front of a byte that is not blank. -/
theorem trimStart_cons_of_not_blank {b : UInt8} {t : Text} (h : Byte.isBlank b = false) :
    trimStart (b :: t) = b :: t := by simp [trimStart, h]

/-- The first run of non-blank bytes after leading blanks, and what follows it. -/
def word (t : Text) : Text × Text :=
  let t := t.trimStart
  (t.takeWhile (!Byte.isBlank ·), t.dropWhile (!Byte.isBlank ·))

/-- The text before the first byte equal to `b` and the text after it, if there is one. -/
def splitAt? (b : UInt8) : Text → Option (Text × Text)
  | [] => none
  | c :: t => if c = b then some ([], t) else (splitAt? b t).map fun p => (c :: p.1, p.2)

/-- A text is not split at a byte that it lacks. -/
theorem splitAt?_eq_none_iff {b : UInt8} {t : Text} : splitAt? b t = none ↔ b ∉ t := by
  induction t with
  | nil => simp [splitAt?]
  | cons c t ih => by_cases h : c = b <;> simp [splitAt?, h, ih, eq_comm (a := b)]

/-- A text is split at the first of the bytes. -/
theorem eq_append_of_splitAt? {b : UInt8} {t l r : Text} (h : splitAt? b t = some (l, r)) :
    t = l ++ b :: r ∧ b ∉ l := by
  induction t generalizing l r with
  | nil => simp [splitAt?] at h
  | cons c t ih =>
    by_cases hc : c = b
    · simp only [splitAt?, hc, ↓reduceIte, Option.some.injEq, Prod.mk.injEq] at h
      simp [← h.1, ← h.2, hc]
    · simp only [splitAt?, hc, ↓reduceIte, Option.map_eq_some_iff, Prod.mk.injEq] at h
      obtain ⟨⟨u, v⟩, hu, rfl, rfl⟩ := h
      obtain ⟨rfl, hb⟩ := ih hu
      simp [hb, Ne.symm hc]

/-- The text before its first zero byte. -/
def untilZero (t : Text) : Text := t.takeWhile (· != 0)

@[simp] theorem untilZero_nil : untilZero [] = [] := rfl

/-- A text without a zero byte ends where it ended. -/
theorem untilZero_eq_self {t : Text} (h : 0 ∉ t) : untilZero t = t := by
  induction t with
  | nil => rfl
  | cons b t ih =>
    have hb : b ≠ 0 := fun e => h (e ▸ List.mem_cons_self)
    have ht : untilZero t = t := ih fun m => h (List.mem_cons_of_mem b m)
    simpa [untilZero, hb] using ht

/-! ## Decimal numbers as text -/

def ofNat (n : Nat) : Text := (Nat.toDigits 10 n).map Char.toUInt8

def ofInt : Int → Text
  | .ofNat n => ofNat n
  | .negSucc n => Byte.minus :: ofNat (n + 1)

/-- The number that decimal digits denote, read from the left. -/
def toNat (digits : Text) : Nat := digits.foldl (fun n b => 10 * n + Byte.digitValue b) 0

@[simp] theorem toNat_nil : toNat [] = 0 := rfl

/-- One more digit multiplies by ten. -/
theorem toNat_concat (t : Text) (b : UInt8) :
    toNat (t ++ [b]) = 10 * toNat t + Byte.digitValue b := by simp [toNat]

end Text

end QueryStats
