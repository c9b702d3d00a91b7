import Mathlib.Data.List.DropRight
import QueryStats.Proofs.Lexemes

/-!
# The grammar of the interchange format

The grammar says of a sequence of bytes which value it spells, not how to find the value.  That the
reader finds it is shown here by induction on the spelling, and with it that no text spells two
values.
-/

namespace QueryStats.Json

/-- What a piece of a text can stand for. -/
inductive Phrase where
  | value (v : Json)
  | element (v : Json)
  | elements (vs : List Json)
  | member (key : Text) (v : Json)
  | members (ms : List (Text × Json))

/-- Nothing but blanks. -/
def AreBlanks (t : Text) : Prop := ∀ b ∈ t, isBlank b

instance : DecidablePred AreBlanks := fun t => List.decidableBAll _ t

/-- The grammar: an element is a value with blanks around it, a member an element with its key in
front. -/
inductive Spells : Text → Phrase → Prop
  | null : Spells (utf8 "null") (.value .null)
  | true : Spells (utf8 "true") (.value (.boolean true))
  | false : Spells (utf8 "false") (.value (.boolean false))
  | number {t : Text} {v : Json} (h : Number t v) : Spells t (.value v)
  | text {t u : Text} (h : Characters t u) :
    Spells (Byte.quote :: (t ++ [Byte.quote])) (.value (.text u))
  | emptyArray {a : Text} (ha : AreBlanks a) :
    Spells (Byte.openBracket :: (a ++ [Byte.closeBracket])) (.value (.array []))
  | array {t : Text} {vs : List Json} (h : Spells t (.elements vs)) :
    Spells (Byte.openBracket :: (t ++ [Byte.closeBracket])) (.value (.array vs))
  | emptyObject {a : Text} (ha : AreBlanks a) :
    Spells (Byte.openBrace :: (a ++ [Byte.closeBrace])) (.value (.object []))
  | object {t : Text} {ms : List (Text × Json)} (h : Spells t (.members ms)) :
    Spells (Byte.openBrace :: (t ++ [Byte.closeBrace])) (.value (.object ms))
  | element {a t b : Text} {v : Json} (ha : AreBlanks a) (h : Spells t (.value v))
      (hb : AreBlanks b) : Spells (a ++ t ++ b) (.element v)
  | lastElement {t : Text} {v : Json} (h : Spells t (.element v)) : Spells t (.elements [v])
  | elements {t u : Text} {v : Json} {vs : List Json} (h : Spells t (.element v))
      (hs : Spells u (.elements vs)) : Spells (t ++ Byte.comma :: u) (.elements (v :: vs))
  | member {a k b t : Text} {key : Text} {v : Json} (ha : AreBlanks a) (hk : Characters k key)
      (hb : AreBlanks b) (h : Spells t (.element v)) :
    Spells (a ++ Byte.quote :: (k ++ Byte.quote :: (b ++ Byte.colon :: t))) (.member key v)
  | lastMember {t key : Text} {v : Json} (h : Spells t (.member key v)) :
    Spells t (.members [(key, v)])
  | members {t u key : Text} {v : Json} {ms : List (Text × Json)} (h : Spells t (.member key v))
      (hs : Spells u (.members ms)) : Spells (t ++ Byte.comma :: u) (.members ((key, v) :: ms))

/-! ## Blanks -/

theorem areBlanks_nil : AreBlanks [] := by decide

section

variable {a t rest : Text} {b : UInt8}

/-- Blanks in front are skipped. -/
theorem AreBlanks.skipBlanks (ha : AreBlanks a) (t : Text) :
    Json.skipBlanks (a ++ t) = Json.skipBlanks t := List.dropWhile_append_of_pos ha

/-- Nothing is skipped where no blank stands in front. -/
theorem skipBlanks_cons (hb : ¬isBlank b) (t : Text) : skipBlanks (b :: t) = b :: t :=
  List.dropWhile_cons_of_neg hb

/-- No blanks are left after they are skipped. -/
theorem skipBlanks_skipBlanks (t : Text) : skipBlanks (skipBlanks t) = skipBlanks t :=
  List.dropWhile_idempotent isBlank t

/-- A number may end before blanks. -/
theorem AreBlanks.delimits (ha : AreBlanks a) (h : Delimits rest) : Delimits (a ++ rest) := by
  cases a with
  | nil => exact h
  | cons b a =>
    have hb : isBlank b := ha b List.mem_cons_self
    simp only [isBlank, Bool.or_eq_true, beq_iff_eq] at hb
    obtain ((rfl | rfl) | rfl) | rfl := hb <;> rfl

/-- Leading blanks make no difference to the reader. -/
theorem scanValue_skipBlanks (fuel : Nat) (t : Text) :
    scanValue fuel (skipBlanks t) = scanValue fuel t := by
  cases fuel with
  | zero => rfl
  | succ fuel => simp only [scanValue, skipBlanks_skipBlanks]

/-- Blanks in front of the items of an array make no difference. -/
theorem scanItems_skipBlanks (fuel : Nat) (t : Text) :
    scanItems fuel (skipBlanks t) = scanItems fuel t := by
  cases fuel with
  | zero => rfl
  | succ fuel => simp only [scanItems, scanValue_skipBlanks]

/-- Blanks in front of the members of an object make no difference. -/
theorem scanMembers_skipBlanks (fuel : Nat) (t : Text) :
    scanMembers fuel (skipBlanks t) = scanMembers fuel t := by
  cases fuel with
  | zero => rfl
  | succ fuel => simp only [scanMembers, skipBlanks_skipBlanks]

end

/-! ## First bytes -/

/-- The first byte after leading blanks closes nothing. -/
def Opens (t : Text) : Prop :=
  ∃ b u, (∀ rest, skipBlanks (t ++ rest) = b :: (u ++ rest)) ∧ b ≠ Byte.closeBracket ∧
    b ≠ Byte.closeBrace

/-- A first byte that is neither a blank nor a closing bracket opens something. -/
theorem opens_cons {b : UInt8} (h : ¬isBlank b) (hb : b ≠ Byte.closeBracket ∧ b ≠ Byte.closeBrace)
    (t : Text) : Opens (b :: t) :=
  ⟨b, t, fun rest => skipBlanks_cons h (t ++ rest), hb⟩

/-- What opens something does so whatever follows. -/
theorem Opens.append {t : Text} (h : Opens t) (u : Text) : Opens (t ++ u) := by
  obtain ⟨b, s, hs, hb⟩ := h
  exact ⟨b, s ++ u, fun rest => by simp [hs], hb⟩

/-- Blanks may stand in front of what opens something. -/
theorem AreBlanks.opens {a t : Text} (ha : AreBlanks a) (h : Opens t) : Opens (a ++ t) := by
  obtain ⟨b, s, hs, hb⟩ := h
  exact ⟨b, s, fun rest => by rw [List.append_assoc, ha.skipBlanks, hs], hb⟩

/-- A digit or a minus. -/
def startsNumber (b : UInt8) : Bool := Byte.isDigit b || b == Byte.minus

/-- A number starts with a digit or a minus. -/
theorem Number.exists_cons {t : Text} {v : Json} (h : Number t v) :
    ∃ b u, t = b :: u ∧ startsNumber b := by
  cases h with
  | positive h =>
    obtain ⟨b, u, rfl, hb⟩ := h.exists_cons
    exact ⟨b, u, rfl, by simp [startsNumber, hb]⟩
  | negative h => exact ⟨_, _, rfl, rfl⟩

/-- A byte that starts a number is none of those that do not. -/
theorem ne_of_startsNumber {b c : UInt8} (hb : startsNumber b) (hc : ¬startsNumber c) : b ≠ c :=
  fun e => hc (e ▸ hb)

/-- No blank starts a number. -/
theorem not_isBlank_of_startsNumber {b : UInt8} (hb : startsNumber b) : ¬isBlank b := by
  simp only [isBlank, Bool.or_eq_true, beq_iff_eq]
  rintro (((rfl | rfl) | rfl) | rfl) <;> exact absurd hb (by decide)

/-- Whatever the grammar spells opens something. -/
theorem Spells.opens {t : Text} {p : Phrase} (h : Spells t p) : Opens t := by
  induction h with
  | null | true | false => exact opens_cons (by decide) (by decide) _
  | text | emptyArray | array | emptyObject | object => exact opens_cons (by decide) (by decide) _
  | number h =>
    obtain ⟨b, u, rfl, hb⟩ := h.exists_cons
    exact opens_cons (not_isBlank_of_startsNumber hb)
      ⟨ne_of_startsNumber hb (by decide), ne_of_startsNumber hb (by decide)⟩ u
  | element ha _ _ ih => exact (ha.opens ih).append _
  | lastElement _ ih | lastMember _ ih => exact ih
  | elements _ _ ih | members _ _ ih => exact ih.append _
  | member ha => exact ha.opens (opens_cons (by decide) (by decide) _)

/-! ## Reading values -/

section

variable {fuel : Nat} {a t u rest : Text} {v : Json}

theorem scanValue_null (fuel : Nat) (rest : Text) :
    scanValue (fuel + 1) (utf8 "null" ++ rest) = some (.null, rest) := rfl

theorem scanValue_true (fuel : Nat) (rest : Text) :
    scanValue (fuel + 1) (utf8 "true" ++ rest) = some (.boolean true, rest) := rfl

theorem scanValue_false (fuel : Nat) (rest : Text) :
    scanValue (fuel + 1) (utf8 "false" ++ rest) = some (.boolean false, rest) := rfl

/-- A word is not there if its first byte is not. -/
theorem expect?_eq_none {b c : UInt8} (h : c ≠ b) (word t : Text) :
    expect? (c :: word) (b :: t) = none := by
  simp [expect?, h]

/-- No word starts like a number. -/
theorem scanWord_of_startsNumber {b : UInt8} (hb : startsNumber b) (t : Text) :
    scanWord (b :: t) = none := by
  have hnull : expect? (utf8 "null") (b :: t) = none :=
    expect?_eq_none (ne_of_startsNumber hb (by decide)).symm _ t
  have htrue : expect? (utf8 "true") (b :: t) = none :=
    expect?_eq_none (ne_of_startsNumber hb (by decide)).symm _ t
  have hfalse : expect? (utf8 "false") (b :: t) = none :=
    expect?_eq_none (ne_of_startsNumber hb (by decide)).symm _ t
  simp [scanWord, hnull, htrue, hfalse]

/-- A number is read up to its end. -/
theorem scanValue_number (h : Number t v) (hrest : Delimits rest) :
    scanValue (fuel + 1) (t ++ rest) = some (v, rest) := by
  have hscan := h.scanNumber hrest
  obtain ⟨b, u, rfl, hb⟩ := h.exists_cons
  rw [List.cons_append] at hscan ⊢
  rw [scanValue, skipBlanks_cons (not_isBlank_of_startsNumber hb)]
  split
  case h_4 => rw [scanWord_of_startsNumber hb, hscan]; rfl
  all_goals next e => exact absurd (List.cons.inj e).1 (ne_of_startsNumber hb (by decide))

/-- A quoted text is read up to its closing quote. -/
theorem scanValue_text (h : Characters t u) (rest : Text) :
    scanValue (fuel + 1) (Byte.quote :: (t ++ Byte.quote :: rest)) = some (.text u, rest) := by
  change (scanQuoted (t ++ Byte.quote :: rest)).map _ = _
  rw [h.scanQuoted]
  rfl

/-- What the reader makes of an opening bracket. -/
theorem scanValue_openBracket (fuel : Nat) (t : Text) :
    scanValue (fuel + 1) (Byte.openBracket :: t)
      = match skipBlanks t with
        | Byte.closeBracket :: t => some (.array [], t)
        | t => (scanItems fuel t).map fun p => (.array p.1, p.2) := rfl

/-- Behind an opening brace the object is empty or has members. -/
theorem scanValue_openBrace (fuel : Nat) (t : Text) :
    scanValue (fuel + 1) (Byte.openBrace :: t)
      = match skipBlanks t with
        | Byte.closeBrace :: t => some (.object [], t)
        | t => (scanMembers fuel t).map fun p => (.object p.1, p.2) := rfl

/-- Brackets with nothing but blanks between them are read as an empty array. -/
theorem scanValue_emptyArray (ha : AreBlanks a) (rest : Text) :
    scanValue (fuel + 1) (Byte.openBracket :: (a ++ Byte.closeBracket :: rest))
      = some (.array [], rest) := by
  rw [scanValue_openBracket, ha.skipBlanks]
  rfl

/-- Braces with nothing but blanks between them are read as an empty object. -/
theorem scanValue_emptyObject (ha : AreBlanks a) (rest : Text) :
    scanValue (fuel + 1) (Byte.openBrace :: (a ++ Byte.closeBrace :: rest))
      = some (.object [], rest) := by
  rw [scanValue_openBrace, ha.skipBlanks]
  rfl

/-- An array with something in it is read item by item. -/
theorem scanValue_array (ht : Opens t) (rest : Text) :
    scanValue (fuel + 1) (Byte.openBracket :: (t ++ rest))
      = (scanItems fuel (t ++ rest)).map fun p => (.array p.1, p.2) := by
  obtain ⟨b, u, h, hb, -⟩ := ht
  rw [← scanItems_skipBlanks, scanValue_openBracket, h]
  split
  · next e => exact absurd (List.cons.inj e).1 hb
  · rfl

/-- An object with something in it is read member by member. -/
theorem scanValue_object (ht : Opens t) (rest : Text) :
    scanValue (fuel + 1) (Byte.openBrace :: (t ++ rest))
      = (scanMembers fuel (t ++ rest)).map fun p => (.object p.1, p.2) := by
  obtain ⟨b, u, h, -, hb⟩ := ht
  rw [← scanMembers_skipBlanks, scanValue_openBrace, h]
  split
  · next e => exact absurd (List.cons.inj e).1 hb
  · rfl

/-- What the reader makes of an element, whatever the blanks after it. -/
theorem scanItems_element {after : Text} (h : scanValue fuel t = some (v, after)) :
    scanItems (fuel + 1) t
      = match skipBlanks after with
        | Byte.closeBracket :: t => some ([v], t)
        | Byte.comma :: t => (scanItems fuel t).map fun p => (v :: p.1, p.2)
        | _ => none := by
  rw [scanItems, h]
  rfl

/-- What the reader makes of a member, whatever the blanks after it. -/
theorem scanMembers_member {a k b key after : Text} (ha : AreBlanks a) (hk : Characters k key)
    (hb : AreBlanks b) (h : scanValue fuel t = some (v, after)) :
    scanMembers (fuel + 1) (a ++ Byte.quote :: (k ++ Byte.quote :: (b ++ Byte.colon :: t)))
      = match skipBlanks after with
        | Byte.closeBrace :: t => some ([(key, v)], t)
        | Byte.comma :: t => (scanMembers fuel t).map fun p => ((key, v) :: p.1, p.2)
        | _ => none := by
  rw [scanMembers, ha.skipBlanks, skipBlanks_cons (by decide)]
  change (scanQuoted (k ++ Byte.quote :: (b ++ Byte.colon :: t))).bind _ = _
  rw [hk.scanQuoted, Option.bind_some]
  dsimp only
  rw [hb.skipBlanks, skipBlanks_cons (by decide)]
  change (scanValue fuel t).bind _ = _
  rw [h]
  rfl

end

/-- What the reader makes of a piece of text when it has two steps for each byte. -/
def Reads (t : Text) : Phrase → Prop
  | .value v => ∀ fuel rest, 2 * t.length ≤ fuel + 1 → Delimits rest →
      scanValue (fuel + 1) (t ++ rest) = some (v, rest)
  | .element v => ∀ fuel rest, 2 * t.length ≤ fuel + 1 → Delimits rest →
      ∃ after, scanValue (fuel + 1) (t ++ rest) = some (v, after) ∧
        skipBlanks after = skipBlanks rest
  | .elements vs => ∀ fuel rest, 2 * t.length ≤ fuel + 1 →
      scanItems (fuel + 2) (t ++ Byte.closeBracket :: rest) = some (vs, rest)
  | .member key v => ∀ fuel rest, 2 * t.length ≤ fuel + 1 →
      scanMembers (fuel + 2) (t ++ Byte.closeBrace :: rest) = some ([(key, v)], rest) ∧
      scanMembers (fuel + 2) (t ++ Byte.comma :: rest)
        = (scanMembers (fuel + 1) rest).map fun p => ((key, v) :: p.1, p.2)
  | .members ms => ∀ fuel rest, 2 * t.length ≤ fuel + 1 →
      scanMembers (fuel + 2) (t ++ Byte.closeBrace :: rest) = some (ms, rest)

/-- The reader finds what the grammar says.  The fuel goes down by one from a value to its items or
members and by one from each of these to the value in it. -/
theorem Spells.reads {t : Text} {p : Phrase} (h : Spells t p) : Reads t p := by
  induction h with
  | null => exact fun fuel rest _ _ => scanValue_null fuel rest
  | true => exact fun fuel rest _ _ => scanValue_true fuel rest
  | false => exact fun fuel rest _ _ => scanValue_false fuel rest
  | number h => exact fun fuel rest _ hrest => scanValue_number h hrest
  | text h =>
    intro fuel rest _ _
    simpa using scanValue_text h rest
  | emptyArray ha =>
    intro fuel rest _ _
    simpa using scanValue_emptyArray ha rest
  | emptyObject ha =>
    intro fuel rest _ _
    simpa using scanValue_emptyObject ha rest
  | array h ih =>
    intro fuel rest hf _
    simp only [List.length_cons, List.length_append, List.length_nil] at hf
    obtain ⟨fuel, rfl⟩ : ∃ k, fuel = k + 2 := ⟨fuel - 2, by omega⟩
    simp [scanValue_array h.opens, ih fuel rest (by omega)]
  | object h ih =>
    intro fuel rest hf _
    simp only [List.length_cons, List.length_append, List.length_nil] at hf
    obtain ⟨fuel, rfl⟩ : ∃ k, fuel = k + 2 := ⟨fuel - 2, by omega⟩
    simp [scanValue_object h.opens, ih fuel rest (by omega)]
  | @element a t b v ha h hb ih =>
    intro fuel rest hf hrest
    simp only [List.length_append] at hf
    refine ⟨b ++ rest, ?_, hb.skipBlanks rest⟩
    calc scanValue (fuel + 1) (a ++ t ++ b ++ rest)
      _ = scanValue (fuel + 1) (skipBlanks (a ++ (t ++ (b ++ rest)))) := by
        simp only [scanValue_skipBlanks, List.append_assoc]
      _ = scanValue (fuel + 1) (t ++ (b ++ rest)) := by rw [ha.skipBlanks, scanValue_skipBlanks]
      _ = some (v, b ++ rest) := ih fuel (b ++ rest) (by omega) (hb.delimits hrest)
  | lastElement h ih =>
    intro fuel rest hf
    obtain ⟨after, hv, hafter⟩ :=
      ih fuel (Byte.closeBracket :: rest) hf (delimits_cons (by decide) rest)
    rw [scanItems_element hv, hafter, skipBlanks_cons (by decide)]
    rfl
  | @elements t u v vs h hs ih ihs =>
    intro fuel rest hf
    -- The comma pays for the step from one element to the next.
    simp only [List.length_cons, List.length_append] at hf
    obtain ⟨fuel, rfl⟩ : ∃ k, fuel = k + 1 := ⟨fuel - 1, by omega⟩
    obtain ⟨after, hv, hafter⟩ := ih (fuel + 1) (Byte.comma :: (u ++ Byte.closeBracket :: rest))
      (by omega) (delimits_cons (by decide) _)
    rw [List.append_assoc, List.cons_append, scanItems_element hv, hafter,
      skipBlanks_cons (by decide)]
    change (scanItems (fuel + 2) (u ++ Byte.closeBracket :: rest)).map _ = _
    rw [ihs fuel rest (by omega)]
    rfl
  | @member a k b t key v ha hk hb h ih =>
    intro fuel rest hf
    simp only [List.length_cons, List.length_append] at hf
    simp only [List.append_assoc, List.cons_append]
    -- What comes after the member's own blanks tells whether it is the last.
    constructor
    · obtain ⟨after, hv, hafter⟩ :=
        ih fuel (Byte.closeBrace :: rest) (by omega) (delimits_cons (by decide) rest)
      rw [scanMembers_member ha hk hb hv, hafter, skipBlanks_cons (by decide)]
      rfl
    · obtain ⟨after, hv, hafter⟩ :=
        ih fuel (Byte.comma :: rest) (by omega) (delimits_cons (by decide) rest)
      rw [scanMembers_member ha hk hb hv, hafter, skipBlanks_cons (by decide)]
      rfl
  | lastMember h ih => exact fun fuel rest hf => (ih fuel rest hf).1
  | @members t u key v ms h hs ih ihs =>
    intro fuel rest hf
    simp only [List.length_cons, List.length_append] at hf
    obtain ⟨fuel, rfl⟩ : ∃ k, fuel = k + 1 := ⟨fuel - 1, by omega⟩
    rw [List.append_assoc, List.cons_append, (ih (fuel + 1) _ (by omega)).2,
      ihs fuel rest (by omega)]
    rfl

/-- A text of the grammar is read, and its value is the one that it spells. -/
theorem Spells.read? {t : Text} {v : Json} (h : Spells t (.element v)) : Json.read? t = some v := by
  obtain ⟨after, hv, hafter⟩ := h.reads (2 * t.length + 1) [] (by omega) rfl
  rw [List.append_nil] at hv
  rw [Json.read?, hv, Option.bind_some, hafter]
  rfl

/-- A value is an element without blanks around it. -/
theorem Spells.toElement {t : Text} {v : Json} (h : Spells t (.value v)) :
    Spells t (.element v) := by
  simpa using Spells.element areBlanks_nil h areBlanks_nil

/-- No text spells two values. -/
theorem Spells.unique {t : Text} {v w : Json} (h : Spells t (.element v))
    (h' : Spells t (.element w)) : v = w := Option.some.inj (h.read?.symm.trans h'.read?)

end QueryStats.Json
