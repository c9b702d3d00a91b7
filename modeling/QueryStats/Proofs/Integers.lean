import QueryStats.Command
import QueryStats.Proofs.Numerals

/-!
# Words and integers at the front of a text

A command is taken from its line item by item.  An item stands behind blanks and ends where a byte
follows that is not of its kind: a word before a blank, an integer before a byte that is no digit.
The carriage return that may end a line is part of no item, so that it does not matter whether it is
dropped first.
-/

namespace QueryStats

open Json (IsDigits Sign)

/-- A text that ends in digits has no carriage return to shed. -/
theorem Json.IsDigits.getLast?_ne_carriageReturn {ds : Text} (h : IsDigits ds) (t : Text) :
    (t ++ ds).getLast? ≠ some Byte.carriageReturn := by
  intro hlast
  rw [List.getLast?_append_of_ne_nil t h.ne_nil] at hlast
  exact absurd (h.digits _ (List.mem_of_getLast? hlast)) (by decide)

/-! ## The carriage return at the end -/

namespace Text

/-- The second text is the first one, perhaps without a carriage return at its end. -/
def Sheds (t u : Text) : Prop := t = u ∨ t = u ++ [Byte.carriageReturn]

namespace Sheds

variable {t u front : Text}

/-- A line sheds the carriage return at its end when it is read. -/
theorem body (l : Line) : Sheds l.content l.body := l.content_eq

/-- What holds of the first byte holds of it when a carriage return at the end is shed. -/
theorem head? {p : UInt8 → Bool} (h : Sheds t u) (ht : t.head?.all p) : u.head?.all p := by
  rcases h with rfl | rfl
  · exact ht
  · cases u with
    | nil => rfl
    | cons b u => exact ht

/-- A front that does not end in a carriage return stays. -/
theorem exists_rest {rest : Text} (h : Sheds (front ++ rest) u)
    (hfront : front.getLast? ≠ some Byte.carriageReturn) :
    ∃ v, Sheds rest v ∧ u = front ++ v := by
  rcases h with rfl | h
  · exact ⟨rest, .inl rfl, rfl⟩
  · -- The front does not end in the carriage return, so the rest does.
    rcases List.eq_nil_or_concat rest with rfl | ⟨v, b, rfl⟩
    · rw [List.append_nil] at h
      exact absurd (by rw [h, List.getLast?_concat]) hfront
    · rw [List.concat_eq_append, ← List.append_assoc] at h
      obtain ⟨rfl, hb⟩ := List.append_inj' h rfl
      exact ⟨v, .inr (by rw [List.concat_eq_append, hb]), rfl⟩

end Sheds

/-! ## Words -/

/-- Behind blanks the text has the word `w`, and `rest` behind it. -/
structure Opens (t w rest : Text) : Prop where
  ne_nil : w ≠ []
  solid : ∀ b ∈ w, Byte.isBlank b = false
  ends : rest.head?.all Byte.isBlank
  lead : ∃ blanks, IsBlank blanks ∧ t = blanks ++ (w ++ rest)

namespace Opens

variable {t u w rest : Text}

/-- The first word of a text is the one that the text opens with. -/
theorem word_eq (h : t.Opens w rest) : t.word = (w, rest) := by
  obtain ⟨blanks, hblanks, rfl⟩ := h.lead
  have hstart : trimStart (w ++ rest) = w ++ rest := by
    obtain ⟨b, w, rfl⟩ := List.exists_cons_of_ne_nil h.ne_nil
    exact trimStart_cons_of_not_blank (h.solid b List.mem_cons_self)
  have hsolid : ∀ b ∈ w, !Byte.isBlank b := fun b hb => by simp [h.solid b hb]
  have hends : rest.head?.all (!!Byte.isBlank ·) := by simpa using h.ends
  obtain ⟨htake, hdrop⟩ := takeWhile_append_dropWhile hsolid hends
  rw [word, trimStart_append hblanks, hstart, htake, hdrop]

/-- A text opens with its first word, if it has one. -/
theorem of_word_eq (hne : w ≠ []) (h : t.word = (w, rest)) : t.Opens w rest := by
  obtain ⟨rfl, rfl⟩ := Prod.mk.inj h
  obtain ⟨blanks, hblanks, ht⟩ := exists_trimStart t
  refine ⟨hne, fun b hb => by simpa using List.mem_takeWhile_imp hb, ?_, blanks, hblanks, ?_⟩
  · simpa using head?_dropWhile (!Byte.isBlank ·) (trimStart t)
  · rw [List.takeWhile_append_dropWhile, ← ht]

/-- The carriage return is shed behind the first word and not from it. -/
theorem of_sheds (h : t.Opens w rest) (hu : t.Sheds u) :
    ∃ rest', rest.Sheds rest' ∧ u.Opens w rest' := by
  obtain ⟨blanks, hblanks, rfl⟩ := h.lead
  rw [← List.append_assoc] at hu
  have hlast : (blanks ++ w).getLast? ≠ some Byte.carriageReturn := by
    rw [List.getLast?_append_of_ne_nil blanks h.ne_nil]
    intro hlast
    exact absurd (h.solid _ (List.mem_of_getLast? hlast)) (by decide)
  obtain ⟨rest', hrest, rfl⟩ := hu.exists_rest hlast
  exact ⟨rest', hrest, h.ne_nil, h.solid, hrest.head? h.ends, blanks, hblanks, by simp⟩

end Opens

end Text

/-! ## Integers -/

namespace Numeral

/-- Digits with at most one sign in front, and the integer they stand for. -/
inductive Denotes : Text → Int → Prop
  | plain {ds : Text} (h : IsDigits ds) : Denotes ds (Text.toNat ds)
  | plus {ds : Text} (h : IsDigits ds) : Denotes (Byte.plus :: ds) (Text.toNat ds)
  | minus {ds : Text} (h : IsDigits ds) : Denotes (Byte.minus :: ds) (-(Text.toNat ds : Int))

/-- A signed word of 32 bits holds the integer. -/
def Fits (i : Int) : Prop := -0x80000000 ≤ i ∧ i < 0x80000000

instance (i : Int) : Decidable (Fits i) := inferInstanceAs (Decidable (_ ∧ _))

/-- Behind blanks the text has a numeral for `i`, and `rest` behind its last digit. -/
structure Leads (t : Text) (i : Int) (rest : Text) : Prop where
  ends : rest.head?.all (!Byte.isDigit ·)
  lead : ∃ blanks w, Text.IsBlank blanks ∧ Denotes w i ∧ t = blanks ++ (w ++ rest)

variable {t u w rest : Text} {i : Int}

/-- A numeral is read into a word of 32 bits if it fits. -/
theorem toInt32?_eq (n : Numeral) : n.toInt32? = if Fits n.toInt then some n.toInt else none := rfl

/-- A numeral is a sign, or none, and digits. -/
theorem denotes_iff : Denotes w i ↔ ∃ s negative ds, Sign s negative ∧ IsDigits ds ∧
    w = s ++ ds ∧ i = toInt ⟨negative, Text.toNat ds⟩ := by
  constructor
  · rintro (h | h | h)
    · exact ⟨_, _, _, .none, h, rfl, rfl⟩
    · exact ⟨_, _, _, .plus, h, rfl, rfl⟩
    · exact ⟨_, _, _, .minus, h, rfl, rfl⟩
  · rintro ⟨s, negative, ds, hs, hds, rfl, rfl⟩
    cases hs with
    | none => exact .plain hds
    | plus => exact .plus hds
    | minus => exact .minus hds

/-- A numeral leads a text exactly if it is scanned there. -/
theorem leads_iff : Leads t i rest ↔ ∃ n, scan t = some (n, rest) ∧ n.toInt = i := by
  constructor
  · rintro ⟨hrest, blanks, w, hblanks, hw, rfl⟩
    obtain ⟨s, negative, ds, hs, hds, rfl, rfl⟩ := denotes_iff.1 hw
    refine ⟨_, scan_eq_some_iff.2 ⟨blanks, s, ds, ?_, hblanks, hs, hds, rfl, hrest⟩, rfl⟩
    rw [List.append_assoc]
  · rintro ⟨n, hscan, rfl⟩
    obtain ⟨blanks, s, ds, rfl, hblanks, hs, hds, hn, hrest⟩ := scan_eq_some_iff.1 hscan
    refine ⟨hrest, blanks, s ++ ds, hblanks, denotes_iff.2 ⟨s, _, ds, hs, hds, rfl, ?_⟩, ?_⟩
    · rw [hn]
    · rw [List.append_assoc]

namespace Leads

/-- A numeral that leads a text is read if it fits. -/
theorem scanInt32 (h : Leads t i rest) :
    Numeral.scanInt32 t = if Fits i then some (i, rest) else none := by
  obtain ⟨n, hscan, rfl⟩ := leads_iff.1 h
  rw [Numeral.scanInt32, hscan, Option.bind_some, toInt32?_eq]
  split_ifs <;> rfl

/-- The carriage return is shed behind a numeral and not from it. -/
theorem of_sheds (h : Leads t i rest) (hu : t.Sheds u) :
    ∃ rest', rest.Sheds rest' ∧ Leads u i rest' := by
  obtain ⟨hrest, blanks, w, hblanks, hw, rfl⟩ := h
  obtain ⟨s, negative, ds, hs, hds, rfl, -⟩ := denotes_iff.1 hw
  rw [← List.append_assoc] at hu
  have hlast : (blanks ++ (s ++ ds)).getLast? ≠ some Byte.carriageReturn := by
    rw [← List.append_assoc]
    exact hds.getLast?_ne_carriageReturn _
  obtain ⟨rest', hshed, rfl⟩ := hu.exists_rest hlast
  exact ⟨rest', hshed, hshed.head? hrest, blanks, s ++ ds, hblanks, hw, by simp⟩

/-- The carriage return is no part of the numeral. -/
theorem of_sheds_right (h : Leads u i rest) (hu : t.Sheds u) : ∃ rest', Leads t i rest' := by
  rcases hu with rfl | rfl
  · exact ⟨rest, h⟩
  · -- Put behind the rest, the carriage return does not go on with the digits in front of it.
    obtain ⟨hrest, blanks, w, hblanks, hw, rfl⟩ := h
    refine ⟨rest ++ [Byte.carriageReturn], ?_, blanks, w, hblanks, hw, by simp⟩
    cases rest with
    | nil => rfl
    | cons b rest => exact hrest

end Leads

/-- No integer is read where no numeral leads. -/
theorem scanInt32_of_not_leads (h : ∀ i rest, ¬ Leads t i rest) : scanInt32 t = none := by
  cases hscan : scan t with
  | none => rw [scanInt32, hscan, Option.bind_none]
  | some p => exact absurd (leads_iff.2 ⟨p.1, hscan, rfl⟩) (h _ p.2)

end Numeral

/-! ## Commands with numbers -/

namespace Command

open Numeral (Leads Fits)

variable {l : Line} {t u rest : Text} {i j : Int}

/-- A line is read by its first word. -/
theorem read_of_opens {line w : Text} (h : line.Opens w rest) : read line = ofWord w rest := by
  have hne : line.isEmpty = false := by
    obtain ⟨blanks, -, rfl⟩ := h.lead
    simp [h.ne_nil]
  rw [read, hne, h.word_eq]
  rfl

/-- Two numerals, one behind the other, are a window if both fit. -/
theorem window?_of_leads (h : Leads t i u) (h' : Leads u j rest) :
    window? t = if Fits i ∧ Fits j then some (i, j) else none := by
  rw [window?, h.scanInt32]
  by_cases hi : Fits i
  · by_cases hj : Fits j <;> simp [hi, hj, h'.scanInt32]
  · simp [hi]

end Command

end QueryStats
