import QueryStats.Config
import QueryStats.Proofs.Lexemes
import QueryStats.Proofs.Trimming

/-!
# Numerals at the front of a text and as settings

A numeral is read where blanks, then at most one sign, then digits stand at the front of a text; it
takes all the digits there are.  A setting that has no blanks at its edges is a number exactly if it
consists of digits, perhaps with a plus in front, that denote one of 64 bits.  Behind blanks there
may also be a minus, and the number wraps round.
-/

namespace QueryStats

open Json (IsDigits Sign)

/-- Digits are not blank. -/
theorem Byte.isBlank_of_isDigit {b : UInt8} (h : Byte.isDigit b) : Byte.isBlank b = false := by
  have hlow := UInt8.le_iff_toNat_le.1 (Byte.le_of_isDigit h)
  have hspace : b ≠ 0x20 := by
    rintro rfl
    exact absurd hlow (by decide)
  have hcontrol : ¬ b ≤ 0x0d := fun hle => by
    have hhigh := UInt8.le_iff_toNat_le.1 hle
    exact absurd (Nat.le_trans hlow hhigh) (by decide)
  simp [isBlank, hspace, hcontrol]

/-- Digits do not start with a minus sign. -/
theorem Json.IsDigits.head?_ne_minus {ds : Text} (h : IsDigits ds) :
    ds.head? ≠ some Byte.minus := by
  obtain ⟨b, u, rfl, hb⟩ := h.exists_cons
  intro hminus
  obtain rfl := Option.some.inj hminus
  exact absurd hb (by decide)

namespace Numeral

variable {t rest s ds : Text} {n : Numeral} {negative : Bool}

/-- A text is its sign and what is behind it. -/
theorem exists_sign (t : Text) : ∃ s, Sign s (sign t).1 ∧ t = s ++ (sign t).2 := by
  unfold sign
  split
  · exact ⟨_, .minus, rfl⟩
  · exact ⟨_, .plus, rfl⟩
  · exact ⟨_, .none, rfl⟩

/-- A signed run of digits starts with no blank. -/
theorem trimStart_sign_append (hs : Sign s negative) (hds : IsDigits ds) (rest : Text) :
    Text.trimStart (s ++ (ds ++ rest)) = s ++ (ds ++ rest) := by
  cases hs with
  | none =>
    obtain ⟨b, u, rfl, hb⟩ := hds.exists_cons
    exact Text.trimStart_cons_of_not_blank (Byte.isBlank_of_isDigit hb)
  | plus => rfl
  | minus => rfl

/-- A numeral is read off a text exactly if blanks, a sign and digits are in front. -/
theorem scan_eq_some_iff :
    scan t = some (n, rest) ↔ ∃ blanks s ds, t = blanks ++ (s ++ (ds ++ rest)) ∧
      Text.IsBlank blanks ∧ Sign s n.negative ∧ IsDigits ds ∧ Text.toNat ds = n.magnitude ∧
      rest.head?.all (!Byte.isDigit ·) := by
  constructor
  · intro h
    obtain ⟨blanks, hblanks, ht⟩ := Text.exists_trimStart t
    obtain ⟨s, hs, hsigned⟩ := exists_sign (Text.trimStart t)
    rw [scan] at h
    split at h
    case isTrue => exact absurd h (by simp)
    case isFalse hne =>
      obtain ⟨rfl, rfl⟩ := Prod.mk.inj (Option.some.inj h)
      refine ⟨blanks, s, _, ?_, hblanks, hs, ⟨fun b => List.mem_takeWhile_imp, ?_⟩, rfl, ?_⟩
      · rw [List.takeWhile_append_dropWhile, ← hsigned, ← ht]
      · simpa using hne
      · exact Text.head?_dropWhile Byte.isDigit _
  · rintro ⟨blanks, s, ds, rfl, hblanks, hs, hds, hmagnitude, hrest⟩
    obtain ⟨htake, hdrop⟩ := takeWhile_append_dropWhile hds.digits hrest
    rw [scan, Text.trimStart_append hblanks, trimStart_sign_append hs hds, hs.sign_append hds]
    simp only [htake, hdrop, hmagnitude]
    rw [if_neg (by simpa using hds.ne_nil)]

end Numeral

namespace Setting

/-- Digits, perhaps with a plus in front. -/
def Denotes (t : Text) (n : Nat) : Prop :=
  ∃ s ds, Sign s false ∧ IsDigits ds ∧ t = s ++ ds ∧ Text.toNat ds = n

variable {t blanks rest : Text} {w : UInt64}

/-- A number is read if the text does not start with a minus sign, is a numeral to its end, and fits
a word. -/
theorem number?_eq_some_iff :
    number? t = some w ↔ t.head? ≠ some Byte.minus ∧
      ∃ n, Numeral.scan t = some (n, []) ∧ n.toWord? = some w := by
  rw [number?]
  split
  case isTrue hminus => simp [hminus]
  case isFalse hminus =>
    split
    case h_1 n hscan => simp [hminus, hscan]
    case h_2 hscan =>
      refine ⟨fun h => by simp at h, ?_⟩
      rintro ⟨-, n, hn, -⟩
      exact absurd hn (hscan n)

/-- Without blanks at its edges, a text is a number exactly if it denotes one of 64 bits. -/
theorem number?_of_isTrimmed (ht : t.isTrimmed) :
    number? t = some w ↔ ∃ n, Denotes t n ∧ n < UInt64.size ∧ w = UInt64.ofNat n := by
  rw [number?_eq_some_iff]
  constructor
  · rintro ⟨hminus, ⟨negative, magnitude⟩, hscan, hword⟩
    obtain ⟨blanks, s, ds, rfl, hblanks, hs, hds, rfl, -⟩ := Numeral.scan_eq_some_iff.1 hscan
    obtain rfl := Text.eq_nil_of_isTrimmed_append ht hblanks
    have hsign : negative = false := by
      cases hs with
      | none | plus => rfl
      | minus => exact absurd rfl hminus
    subst hsign
    rw [Numeral.toWord?] at hword
    split at hword
    case isTrue hlt => exact ⟨_, ⟨s, ds, hs, hds, by simp, rfl⟩, hlt, (Option.some.inj hword).symm⟩
    case isFalse => exact absurd hword (by simp)
  · rintro ⟨n, ⟨s, ds, hs, hds, rfl, rfl⟩, hn, rfl⟩
    refine ⟨?_, ⟨false, Text.toNat ds⟩, Numeral.scan_eq_some_iff.2 ?_, ?_⟩
    · cases hs with
      | none => exact hds.head?_ne_minus
      | plus => exact fun h => absurd (Option.some.inj h) (by decide)
    · exact ⟨[], s, ds, by simp, by simp [Text.IsBlank], hs, hds, rfl, rfl⟩
    · rw [Numeral.toWord?, if_pos hn]
      rfl

/-- Digits are read as the number they write, as long as it fits a word. -/
theorem number?_of_isDigits (h : IsDigits t) :
    number? t =
      if Text.toNat t < UInt64.size then some (UInt64.ofNat (Text.toNat t)) else none := by
  have hscan : Numeral.scan t = some (⟨false, Text.toNat t⟩, []) :=
    Numeral.scan_eq_some_iff.2 ⟨[], [], t, by simp, by simp [Text.IsBlank], .none, h, rfl, rfl⟩
  rw [number?, if_neg h.head?_ne_minus, hscan]
  rfl

/-- The number that one with a minus wraps round to. -/
theorem neg_ofNat {n : Nat} (h : n < UInt64.size) :
    -UInt64.ofNat n = UInt64.ofNat ((UInt64.size - n) % UInt64.size) := by
  have hlt : (UInt64.size - n) % UInt64.size < UInt64.size := Nat.mod_lt _ (by decide)
  refine UInt64.toNat_inj.1 ?_
  rw [UInt64.toNat_neg, UInt64.toNat_ofNat_of_lt' h, UInt64.toNat_ofNat_of_lt' hlt]

/-- A minus is let through behind blanks, and then the number wraps round. -/
theorem number?_of_minus (hblanks : Text.IsBlank blanks) :
    number? (blanks ++ Byte.minus :: rest) = some w ↔
      blanks ≠ [] ∧ IsDigits rest ∧ Text.toNat rest < UInt64.size ∧
        w = UInt64.ofNat ((UInt64.size - Text.toNat rest) % UInt64.size) := by
  rw [number?_eq_some_iff]
  constructor
  · rintro ⟨hhead, ⟨negative, magnitude⟩, hscan, hword⟩
    obtain ⟨blanks', s, ds, heq, hblanks', hs, hds, rfl, -⟩ := Numeral.scan_eq_some_iff.1 hscan
    have hrest : Byte.minus :: rest = s ++ (ds ++ []) := by
      have htrim := congrArg Text.trimStart heq
      rwa [Text.trimStart_append hblanks, Text.trimStart_append hblanks',
        Numeral.trimStart_sign_append hs hds] at htrim
    rw [List.append_nil] at hrest
    cases hs with
    | none =>
      rw [List.nil_append] at hrest
      exact absurd (hds.digits Byte.minus (hrest ▸ List.mem_cons_self)) (by decide)
    | plus => exact absurd (List.cons.inj hrest).1 (by decide)
    | minus =>
      obtain rfl := (List.cons.inj hrest).2
      rw [Numeral.toWord?] at hword
      split at hword
      case isFalse => cases hword
      case isTrue hlt =>
        refine ⟨?_, hds, hlt, (Option.some.inj hword).symm.trans (neg_ofNat hlt)⟩
        rintro rfl
        exact hhead rfl
  · rintro ⟨hne, hds, hlt, rfl⟩
    obtain ⟨b, blanks, rfl⟩ := List.exists_cons_of_ne_nil hne
    refine ⟨?_, ⟨true, Text.toNat rest⟩, Numeral.scan_eq_some_iff.2 ?_, ?_⟩
    · intro hminus
      have hb := hblanks b List.mem_cons_self
      rw [Option.some.inj hminus] at hb
      exact absurd hb (by decide)
    · exact ⟨b :: blanks, [Byte.minus], rest, by simp, hblanks, .minus, hds, rfl, rfl⟩
    · rw [Numeral.toWord?, if_pos hlt, ← neg_ofNat hlt]
      rfl

end Setting

end QueryStats
