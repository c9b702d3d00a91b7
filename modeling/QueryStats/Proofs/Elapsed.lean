import QueryStats.Entry
import QueryStats.Proofs.Decimals
import QueryStats.Proofs.Durations
import QueryStats.Proofs.Numerals

/-!
# Which durations are accepted

A duration is a number or the text of one.  Of the many ways to write a number only the plain one is
accepted: digits, perhaps a point with or without digits behind it, perhaps an exponent.

A general reader takes far more: blanks and a sign in front, digits of base sixteen, the words for
infinity and for what is not a number; and it takes a text to end at a zero byte.  Two checks on the
bytes leave nothing of this but the plain form: no byte occurs that the plain form does not have,
and the first byte is a digit.
-/

namespace QueryStats

open Json (IsDigits Sign Exponent Places)

namespace Decimal

/-! ## Plain numbers -/

/-- Digits, perhaps a point with any number of digits behind it, perhaps an exponent. -/
inductive Plain : Text → Decimal → Prop
  | mk {whole places exponent : Text} {ds? : Option Text} {e : Int} (hw : IsDigits whole)
      (hp : Places Byte.isDigit places ds?) (he : Exponent exponent e) :
    Plain (whole ++ places ++ exponent)
      ⟨Text.toNat (whole ++ ds?.getD []), e - (ds?.getD []).length⟩

/-- What is read as a fraction is a point with digits behind it, or nothing. -/
theorem exists_places (t : Text) :
    ∃ places, Places Byte.isDigit places (Literal.scanFraction t).1 ∧
      t = places ++ (Literal.scanFraction t).2 := by
  rw [Literal.scanFraction.eq_def]
  split
  · refine ⟨_, .point fun b => List.mem_takeWhile_imp, ?_⟩
    rw [List.cons_append, List.takeWhile_append_dropWhile]
    rfl
  · exact ⟨[], .none, rfl⟩

/-- What is read as an exponent is one, or nothing. -/
theorem exists_exponent (t : Text) :
    ∃ exponent, Exponent exponent ((Literal.scanExponent t).1.getD 0) ∧
      t = exponent ++ (Literal.scanExponent t).2 := by
  cases t with
  | nil => exact ⟨[], .none, rfl⟩
  | cons b t =>
    obtain ⟨s, hs, ht⟩ := Numeral.exists_sign t
    rw [Literal.scanExponent]
    split
    case isTrue hpower =>
      simp only [Bool.and_eq_true, Bool.or_eq_true, beq_iff_eq, Bool.not_eq_true',
        List.isEmpty_eq_false_iff] at hpower
      refine ⟨_, .power hpower.1 hs ⟨fun b => List.mem_takeWhile_imp, hpower.2⟩, ?_⟩
      rw [List.cons_append, List.append_assoc, List.takeWhile_append_dropWhile, ← ht]
    case isFalse => exact ⟨[], .none, rfl⟩

section

variable {t : Text} {d : Decimal}

/-- A text is read as a decimal number exactly if it is a plain one. -/
theorem read?_eq_some_iff : Literal.read? t = some d ↔ Plain t d := by
  constructor
  · intro h
    rw [Literal.read?] at h
    split at h
    case h_2 => cases h
    case h_1 l hscan =>
      obtain rfl := Option.some.inj h
      rw [Literal.scan] at hscan
      split at hscan
      case isTrue => cases hscan
      case isFalse hne =>
        obtain ⟨rfl, hrest⟩ := Prod.mk.inj (Option.some.inj hscan)
        obtain ⟨places, hp, hplaces⟩ := exists_places (t.dropWhile Byte.isDigit)
        obtain ⟨exponent, he, hexponent⟩ :=
          exists_exponent (Literal.scanFraction (t.dropWhile Byte.isDigit)).2
        have hw : IsDigits (t.takeWhile Byte.isDigit) :=
          ⟨fun b => List.mem_takeWhile_imp, by simpa using hne⟩
        have ht : t = t.takeWhile Byte.isDigit ++ places ++ exponent := by
          rw [hrest, List.append_nil] at hexponent
          rw [← hexponent, List.append_assoc, ← hplaces, List.takeWhile_append_dropWhile]
        have hplain := Plain.mk hw hp he
        rwa [← ht] at hplain
  · rintro ⟨hw, hp, he⟩
    have hend : Json.Delimits [] := rfl
    obtain ⟨e?, hscan, rfl⟩ := Json.scan_append hw hp he hend
    rw [List.append_nil] at hscan
    rw [Literal.read?, hscan]
    rfl

/-! ## Numbers as a general reader takes them -/

/-- A letter in lower case. -/
def lower (b : UInt8) : UInt8 := if 0x41 ≤ b && b ≤ 0x5a then b + 0x20 else b

/-- The text is this word, in upper or lower case. -/
def IsWord (word : String) (t : Text) : Prop := t.map lower = utf8 word

def isHexDigit (b : UInt8) : Bool := (Json.hexValue? b).isSome

/-- A digit, a letter or a low line. -/
def isWordByte (b : UInt8) : Bool :=
  Byte.isDigit b || (0x61 ≤ lower b && lower b ≤ 0x7a) || b == 0x5f

/-- The power of two at the end of a number of base sixteen. -/
inductive Scale : Text → Prop
  | none : Scale []
  | power {b : UInt8} {s ds : Text} {negative : Bool} (hb : b = 0x70 ∨ b = 0x50)
      (hs : Sign s negative) (h : IsDigits ds) : Scale (b :: (s ++ ds))

/-- A number without its sign, and its value if it is written in decimal.  There is a digit before
the point or behind it. -/
inductive Unsigned : Text → Option Decimal → Prop
  | decimal {whole places exponent : Text} {ds? : Option Text} {e : Int}
      (hw : ∀ b ∈ whole, Byte.isDigit b) (hp : Places Byte.isDigit places ds?)
      (hne : whole ++ ds?.getD [] ≠ []) (he : Exponent exponent e) :
    Unsigned (whole ++ places ++ exponent)
      (some ⟨Text.toNat (whole ++ ds?.getD []), e - (ds?.getD []).length⟩)
  | hexadecimal {x : UInt8} {whole places scale : Text} {ds? : Option Text}
      (hx : x = 0x78 ∨ x = 0x58) (hw : ∀ b ∈ whole, isHexDigit b)
      (hp : Places isHexDigit places ds?) (hne : whole ++ ds?.getD [] ≠ []) (hs : Scale scale) :
    Unsigned (0x30 :: x :: (whole ++ places ++ scale)) none
  | infinity {t : Text} (h : IsWord "inf" t ∨ IsWord "infinity" t) : Unsigned t none
  | notANumber {t : Text} (h : IsWord "nan" t) : Unsigned t none
  | payload {t u : Text} (h : IsWord "nan" t) (hu : ∀ b ∈ u, isWordByte b) :
    Unsigned (t ++ 0x28 :: (u ++ [0x29])) none

/-- Blanks, a sign and a number, with its value if it is a decimal without a minus. -/
inductive General : Text → Option Decimal → Prop
  | mk {blanks s u : Text} {negative : Bool} {v : Option Decimal} (hblanks : Text.IsBlank blanks)
      (hs : Sign s negative) (h : Unsigned u v) :
    General (blanks ++ (s ++ u)) (if negative then none else v)

/-- The longest number at the front of a text. -/
structure Takes (t p : Text) (v : Option Decimal) : Prop where
  general : General p v
  isPrefix : p <+: t
  longest (q : Text) (w : Option Decimal) : General q w → q <+: t → q.length ≤ p.length

/-- A byte of a plain number. -/
def isPlainByte (b : UInt8) : Bool :=
  Json.isNumeric b || b == Byte.plus || b == Byte.minus

/-- What is checked before the general reader is asked. -/
structure Checked (t : Text) : Prop where
  bytes : ∀ b ∈ t, isPlainByte b
  head : t.head?.any Byte.isDigit

/-- The zero byte, at which a general reader stops, is not plain. -/
theorem ne_zero_of_isPlainByte {b : UInt8} (h : isPlainByte b) : b ≠ 0 := by
  rintro rfl
  exact absurd h (by decide)

/-- Digits have no lower case. -/
theorem lower_of_isDigit {b : UInt8} (h : Byte.isDigit b) : lower b = b := by
  have hhigh : b ≤ 0x39 := by
    rw [Byte.isDigit, Bool.and_eq_true, decide_eq_true_eq, decide_eq_true_eq] at h
    exact h.2
  have hcapital : ¬0x41 ≤ b := fun hle => absurd (UInt8.le_trans hle hhigh) (by decide)
  simp [lower, hcapital]

/-- Digits are plain. -/
theorem isPlainByte_of_isDigit {b : UInt8} (h : Byte.isDigit b) : isPlainByte b := by
  simp [isPlainByte, Json.isNumeric, h]

/-- Plain numbers pass both checks. -/
theorem Plain.checked (h : Plain t d) : Checked t := by
  obtain ⟨hw, hp, he⟩ := h
  have hdigits : ∀ {ds : Text}, (∀ b ∈ ds, Byte.isDigit b) → ∀ b ∈ ds, isPlainByte b :=
    fun h b hb => isPlainByte_of_isDigit (h b hb)
  constructor
  · refine List.forall_mem_append.2 ⟨List.forall_mem_append.2 ⟨hdigits hw.digits, ?_⟩, ?_⟩
    · cases hp with
      | none => exact fun b hb => absurd hb List.not_mem_nil
      | point h => exact List.forall_mem_cons.2 ⟨rfl, hdigits h⟩
    · cases he with
      | none => exact fun b hb => absurd hb List.not_mem_nil
      | power hb hs h =>
        refine List.forall_mem_cons.2 ⟨?_, List.forall_mem_append.2 ⟨?_, hdigits h.digits⟩⟩
        · obtain rfl | rfl := hb <;> rfl
        · cases hs with
          | none => exact fun b hb => absurd hb List.not_mem_nil
          | plus | minus => exact List.forall_mem_singleton.2 rfl
  · obtain ⟨b, u, rfl, hb⟩ := hw.exists_cons
    exact hb

/-- The general reader knows the plain numbers, with their value. -/
theorem Plain.unsigned (h : Plain t d) : Unsigned t (some d) := by
  obtain ⟨hw, hp, he⟩ := h
  exact .decimal hw.digits hp (fun hnil => hw.ne_nil (List.append_eq_nil_iff.1 hnil).1) he

/-- No word begins with a digit. -/
theorem IsWord.not_checked {word : String} {b : UInt8} {u rest : Text}
    (hword : utf8 word = b :: u) (hb : Byte.isDigit b = false) (h : IsWord word t) :
    ¬Checked (t ++ rest) := by
  intro hchecked
  rw [IsWord, hword] at h
  obtain ⟨c, t, rfl, hc, -⟩ := List.map_eq_cons_iff.1 h
  have hdigit : Byte.isDigit c := hchecked.head
  rw [← hc, lower_of_isDigit hdigit, hdigit] at hb
  exact Bool.noConfusion hb

/-- Of all that the general reader knows only the plain numbers pass the checks. -/
theorem Unsigned.plain {v : Option Decimal} (h : Unsigned t v) (hchecked : Checked t) :
    ∃ d, v = some d ∧ Plain t d := by
  cases h with
  | @decimal whole places exponent ds? e hw hp hne he =>
    refine ⟨_, rfl, ⟨hw, ?_⟩, hp, he⟩
    rintro rfl
    cases hp with
    | none => exact hne rfl
    | point => exact absurd hchecked.head Bool.false_ne_true
  | hexadecimal hx =>
    have hbyte := hchecked.bytes _ (List.mem_cons_of_mem _ List.mem_cons_self)
    obtain rfl | rfl := hx <;> exact absurd hbyte (by decide)
  | infinity h =>
    rw [← List.append_nil t] at hchecked
    obtain h | h := h <;> exact absurd hchecked (h.not_checked rfl rfl)
  | notANumber h =>
    rw [← List.append_nil t] at hchecked
    exact absurd hchecked (h.not_checked rfl rfl)
  | payload h => exact absurd hchecked (h.not_checked rfl rfl)

/-- Before a digit there is neither a blank nor a sign. -/
theorem General.unsigned {v : Option Decimal} (h : General t v) (hchecked : Checked t) :
    Unsigned t v := by
  obtain ⟨hblanks, hs, h⟩ := h
  rename_i blanks s u negative v
  obtain rfl : blanks = [] := by
    cases blanks with
    | nil => rfl
    | cons b blanks =>
      have hblank := hblanks b List.mem_cons_self
      rw [Byte.isBlank_of_isDigit hchecked.head] at hblank
      exact Bool.noConfusion hblank
  cases hs with
  | none => exact h
  | plus | minus => exact absurd hchecked.head Bool.false_ne_true

/-- The checked texts that the general reader takes as a whole are the plain numbers. -/
theorem takes_iff {v : Option Decimal} :
    Checked t ∧ Takes t.untilZero t v ↔ ∃ d, v = some d ∧ Plain t d := by
  constructor
  · rintro ⟨hchecked, htakes⟩
    exact (htakes.general.unsigned hchecked).plain hchecked
  · rintro ⟨d, rfl, h⟩
    have hzero : t.untilZero = t :=
      Text.untilZero_eq_self fun hmem => ne_zero_of_isPlainByte (h.checked.bytes 0 hmem) rfl
    have hnil : Text.IsBlank [] := fun b hb => absurd hb List.not_mem_nil
    refine ⟨h.checked, .mk hnil .none h.unsigned, ?_, ?_⟩
    · rw [hzero]
    · rw [hzero]
      exact fun q w _ hq => hq.length_le

end

end Decimal

namespace Entry

open Float.Model Double Decimal

/-- The milliseconds that a number or a plain text stands for. -/
inductive Gives : Entry → Float → Prop
  | number (ms : Float) : Gives (number ms) ms
  | text {t : Text} {d : Decimal} {ms : Float} (h : Plain t d) (hms : RoundsTo d.toRat ms) :
    Gives (text t) ms

/-- Seconds depend on a double only as far as its value is told. -/
theorem secondsOfMillis?_congr {x y : Float} (h : x.toModel.unpack = y.toModel.unpack) :
    secondsOfMillis? x = secondsOfMillis? y := by
  have hfinite : x.isFinite = y.isFinite := congrArg UnpackedFloat.isFinite h
  have hlt : x < 0 ↔ y < 0 := by rw [lt_iff, lt_iff, h]
  have hdiv : x / 1000 = y / 1000 := by
    change Float.ofModel (.pack (.div Format.binary64 x.toModel.unpack _)) = _
    rw [h]
    rfl
  simp only [secondsOfMillis?, hfinite, hlt, hdiv]

/-- A duration is accepted exactly if it gives milliseconds that can be taken. -/
theorem elapsed?_eq_some_iff {e : Entry} {x : Float} :
    e.elapsed? = some x ↔
      ∃ ms, Gives (e.get (utf8 "elapsedMs")) ms ∧ secondsOfMillis? ms = some x := by
  rw [elapsed?]
  generalize e.get (utf8 "elapsedMs") = v
  cases v with
  | absent | object =>
    constructor
    · intro h
      cases h
    · rintro ⟨ms, h, -⟩
      cases h
  | number ms =>
    constructor
    · exact fun h => ⟨ms, .number ms, h⟩
    · rintro ⟨_, ⟨⟩, h⟩
      exact h
  | text t =>
    rw [Option.bind_eq_some_iff]
    constructor
    · rintro ⟨d, hd, h⟩
      exact ⟨_, .text (read?_eq_some_iff.1 hd) (roundsTo_toFloat d), h⟩
    · rintro ⟨ms, hgives, h⟩
      cases hgives with
      | text hplain hms =>
        rw [← secondsOfMillis?_congr ((roundsTo_toFloat _).unpack_eq hms)] at h
        exact ⟨_, read?_eq_some_iff.2 hplain, h⟩

/-- The duration in a text is what the general reader makes of it: the bytes of the text are those
of plain numbers, the first of them is a digit, the reader takes the text to its end, and the number
that it reads is finite and not negative as a double. -/
theorem elapsed?_text_eq_some_iff {e : Entry} {t : Text} {x : Float}
    (h : e.get (utf8 "elapsedMs") = text t) : e.elapsed? = some x ↔
      ∃ d ms, Checked t ∧ Takes t.untilZero t (some d) ∧ RoundsTo d.toRat ms ∧ ms.isFinite ∧
        ¬ms < 0 ∧ x = ms / 1000 := by
  rw [elapsed?_eq_some_iff, h]
  simp only [secondsOfMillis?_eq_some_iff]
  constructor
  · rintro ⟨ms, hgives, hms⟩
    cases hgives with
    | @text t d ms hplain hrounds =>
      obtain ⟨hchecked, htakes⟩ := takes_iff.2 ⟨d, rfl, hplain⟩
      exact ⟨d, ms, hchecked, htakes, hrounds, hms⟩
  · rintro ⟨d, ms, hchecked, htakes, hrounds, hms⟩
    obtain ⟨d', hd, hplain⟩ := takes_iff.1 ⟨hchecked, htakes⟩
    obtain rfl : d = d' := Option.some.inj hd
    exact ⟨ms, .text hplain hrounds, hms⟩

/-- A duration is accepted exactly if it is finite and not negative, and is a number or a plain
decimal; in seconds it is then finite and not negative either. -/
theorem accepts_numbers_and_plain_decimals :
    (∀ (e : Entry) (x : Float), e.elapsed? = some x ↔
      ∃ ms, Gives (e.get (utf8 "elapsedMs")) ms ∧ ms.isFinite ∧ ¬ms < 0 ∧ x = ms / 1000) ∧
    (∀ e : Entry, e.elapsed?.all fun x => x.isFinite ∧ 0 ≤ x) ∧
    ∀ (t : Text) (v : Option Decimal),
      Checked t ∧ Takes t.untilZero t v ↔ ∃ d, v = some d ∧ Plain t d := by
  refine ⟨fun e x => ?_, fun e => ?_, fun t v => takes_iff⟩
  · simp only [elapsed?_eq_some_iff, secondsOfMillis?_eq_some_iff]
  · cases hx : e.elapsed? with
    | none => rfl
    | some x =>
      obtain ⟨ms, -, h⟩ := elapsed?_eq_some_iff.1 hx
      obtain ⟨hfinite, hms, rfl⟩ := secondsOfMillis?_eq_some_iff.1 h
      have hcanonical := canonical_seconds hfinite
      have hnonneg := zero_le_of_valueOf hcanonical (valueOf_seconds_nonneg hfinite hms)
      exact decide_eq_true ⟨hcanonical.isFinite, hnonneg⟩

example : (object [(utf8 "elapsedMs", text (utf8 "1.5e3"))]).elapsed?.any (· == 1.5) := by
  decide +kernel

end Entry

end QueryStats
