import QueryStats.Proofs.Grammar
import QueryStats.Ranking

/-!
# Ranked tallies written and read back

What is written for ranked tallies is one object of the grammar on a line of its own.  It spells the
tallies it was written for and no others, whatever bytes their keys have.
-/

namespace QueryStats

/-- Control bytes, the line breaks among them, are those below the space. -/
def Text.NoControls (t : Text) : Prop := ∀ b ∈ t, 0x20 ≤ b

instance : DecidablePred Text.NoControls := fun t => List.decidableBAll _ t

namespace Json

/-! ## Escaped texts -/

/-- The sixteen digits are hexadecimal. -/
theorem isHex_ofDigit : ∀ n < 16, IsHex (Byte.ofDigit n) n := by
  unfold IsHex
  decide

/-- The number of a control byte stands for that byte. -/
theorem utf8EncodeChar_of_control :
    ∀ n < 0x20, String.utf8EncodeChar (Char.ofNat n) = [UInt8.ofNat n] := by decide

/-- A control byte is written with its number. -/
theorem numbered_of_control {n : Nat} (h : n < 0x20) :
    Numbered (utf8 "\\u00" ++ [Byte.ofDigit (n / 16), Byte.ofDigit (n % 16)]) n := by
  have hn := Numbered.mk (isHex_ofDigit 0 (by decide)) (isHex_ofDigit 0 (by decide))
    (isHex_ofDigit (n / 16) (by omega)) (isHex_ofDigit (n % 16) (by omega))
  have hvalue : ((0 * 16 + 0) * 16 + n / 16) * 16 + n % 16 = n := by omega
  rwa [hvalue] at hn

/-- An escaped byte is read as the byte again. -/
theorem Characters.escapeByte {t u : Text} (h : Characters t u) (b : UInt8) :
    Characters (Json.escapeByte b ++ t) (b :: u) := by
  unfold Json.escapeByte
  split_ifs with hquote hbackslash hnewline hreturn htab hcontrol
  · subst hquote
    exact .escaped (by decide) h
  · subst hbackslash
    exact .escaped (by decide) h
  · subst hnewline
    exact .escaped (by decide) h
  · subst hreturn
    exact .escaped (by decide) h
  · subst htab
    exact .escaped (by decide) h
  · have hb : b.toNat < 0x20 := UInt8.lt_iff_toNat_lt.1 hcontrol
    have hunit : ¬(isHigh b.toNat ∨ isLow b.toNat) := by
      simp only [isHigh, isLow, Bool.and_eq_true, decide_eq_true_eq]
      omega
    have ht := Characters.unit (numbered_of_control hb) hunit h
    rwa [utf8EncodeChar_of_control _ hb, UInt8.ofNat_toNat, List.singleton_append] at ht
  · exact .byte (by simpa using hcontrol) hquote hbackslash h

/-- The escaped form of a text means that text. -/
theorem characters_escape (t : Text) : Characters (escape t) t := by
  induction t with
  | nil => exact .nil
  | cons b t ih => exact ih.escapeByte b

/-! ## Control bytes -/

/-- Hexadecimal digits are no control bytes. -/
theorem IsHex.control {b : UInt8} {n : Nat} (h : IsHex b n) : 0x20 ≤ b := by
  have hlower : Text.NoControls (utf8 "0123456789abcdef") := by decide
  have hupper : Text.NoControls (utf8 "0123456789ABCDEF") := by decide
  obtain h | h := h
  · exact hlower b (List.mem_of_getElem? h)
  · exact hupper b (List.mem_of_getElem? h)

/-- A numbered escape has no control bytes. -/
theorem Numbered.noControls {s : Text} {n : Nat} (h : Numbered s n) : s.NoControls := by
  have hstart : Text.NoControls [Byte.backslash, 0x75] := by decide
  cases h with
  | mk ha hb hc hd =>
    simp only [List.forall_mem_cons, Text.NoControls] at hstart ⊢
    exact ⟨hstart.1, hstart.2.1, ha.control, hb.control, hc.control, hd.control, hstart.2.2⟩

/-- The short escapes have no control bytes. -/
theorem noControls_escapes : Text.NoControls (escapes.map (·.1)) := by decide

/-- Between quotes stand no control bytes, whatever the text that is meant. -/
theorem Characters.noControls {t u : Text} (h : Characters t u) : t.NoControls := by
  induction h with
  | nil => exact List.forall_mem_nil _
  | byte control _ _ _ ih => exact List.forall_mem_cons.2 ⟨control, ih⟩
  | escaped h _ ih =>
    have hletter := noControls_escapes _ (List.mem_map_of_mem h)
    exact List.forall_mem_cons.2 ⟨by decide, List.forall_mem_cons.2 ⟨hletter, ih⟩⟩
  | unit hs _ _ ih => exact List.forall_mem_append.2 ⟨hs.noControls, ih⟩
  | pair hs hs' _ _ _ ih =>
    exact List.forall_mem_append.2 ⟨List.forall_mem_append.2 ⟨hs.noControls, hs'.noControls⟩, ih⟩

/-! ## Whole numbers -/

/-- The decimal digits of a number are a number of the grammar. -/
theorem number_ofNat (n : Nat) : Number (Text.ofNat n) (.number false ⟨n, 0⟩) := by
  have h : Magnitude (Text.ofNat n ++ [] ++ []) ⟨Text.toNat (Text.ofNat n ++ []), 0 - (0 : Nat)⟩ :=
    .mk ⟨Text.isDigit_of_mem_ofNat n, Text.ofNat_ne_nil n⟩ (Text.head?_ofNat n) .none .none
  simpa using Number.positive h

end Json

namespace Ranking

/-! ## Members -/

/-- A tally as it is written in an object. -/
def memberText (t : Tally) : Text := Json.quoted t.1 ++ utf8 ":" ++ Text.ofNat t.2.toNat

/-- A tally as a member of an object. -/
def member (t : Tally) : Text × Json := (t.1, .number false ⟨t.2.toNat, 0⟩)

/-- Different tallies give different members. -/
theorem member_injective : Function.Injective member := by
  intro t u h
  simp only [member, Prod.mk.injEq, Json.number.injEq, Decimal.mk.injEq, UInt64.toNat_inj] at h
  exact Prod.ext h.1 h.2.2.1

/-- A tally is written as a member. -/
theorem spells_member {a : Text} (ha : Json.AreBlanks a) (t : Tally) :
    Json.Spells (a ++ memberText t) (.member (member t).1 (member t).2) := by
  have h := Json.Spells.member ha (Json.characters_escape t.1) Json.areBlanks_nil
    (Json.Spells.number (Json.number_ofNat t.2.toNat)).toElement
  have hcolon : utf8 ":" = [Byte.colon] := rfl
  simpa [memberText, member, Json.quoted, hcolon] using h

/-- The blank after a comma belongs to the member behind it. -/
theorem spells_members {a : Text} (ha : Json.AreBlanks a) (t : Tally) (ts : List Tally) :
    Json.Spells (a ++ List.intercalate (utf8 ", ") ((t :: ts).map memberText))
      (.members ((t :: ts).map member)) := by
  induction ts generalizing a t with
  | nil => simpa using Json.Spells.lastMember (spells_member ha t)
  | cons u ts ih =>
    have hblank : Json.AreBlanks [0x20] := by decide
    have hcomma : utf8 ", " = [Byte.comma, 0x20] := rfl
    simpa [List.intercalate_cons_cons, hcomma] using (spells_member ha t).members (ih hblank u)

/-- A written member has no control bytes. -/
theorem noControls_memberText (t : Tally) : (memberText t).NoControls := by
  have hkey : (Json.escape t.1).NoControls := (Json.characters_escape t.1).noControls
  have hcount : (Text.ofNat t.2.toNat).NoControls := fun b hb =>
    UInt8.le_trans (by decide) (Byte.le_of_isDigit (Text.isDigit_of_mem_ofNat _ b hb))
  have hquote : Text.NoControls [Byte.quote] := by decide
  have hcolon : (utf8 ":").NoControls := by decide
  have hquoted : (Json.quoted t.1).NoControls :=
    List.forall_mem_append.2 ⟨hquote, List.forall_mem_append.2 ⟨hkey, hquote⟩⟩
  exact List.forall_mem_append.2 ⟨List.forall_mem_append.2 ⟨hquoted, hcolon⟩, hcount⟩

/-! ## Objects -/

/-- The text of ranked tallies without the newline at its end. -/
def object (ts : List Tally) : Text :=
  Byte.openBrace :: (List.intercalate (utf8 ", ") (ts.map memberText) ++ [Byte.closeBrace])

/-- A ranking is an object and a newline. -/
theorem text_eq (ts : List Tally) : text ts = object ts ++ [Byte.newline] := by
  have hopen : utf8 "\x7b" = [Byte.openBrace] := rfl
  have hclose : utf8 "\x7d\n" = [Byte.closeBrace, Byte.newline] := rfl
  have hmember : memberText = fun t => Json.quoted t.1 ++ utf8 ":" ++ Text.ofNat t.2.toNat := rfl
  simp [text, object, hopen, hclose, hmember]

/-- A ranking is an object with a member for each tally, in their order. -/
theorem spells_object (ts : List Tally) :
    Json.Spells (object ts) (.value (.object (ts.map member))) := by
  cases ts with
  | nil => exact .emptyObject Json.areBlanks_nil
  | cons t ts => exact .object (spells_members Json.areBlanks_nil t ts)

/-- With its newline the object is a whole text of the grammar. -/
theorem spells_text (ts : List Tally) :
    Json.Spells (text ts) (.element (.object (ts.map member))) := by
  rw [text_eq]
  exact .element Json.areBlanks_nil (spells_object ts) (by decide)

/-- Parts without control bytes are joined without any. -/
theorem noControls_intercalate {sep : Text} (hsep : sep.NoControls) {parts : List Text}
    (h : ∀ t ∈ parts, t.NoControls) : Text.NoControls (List.intercalate sep parts) := by
  induction parts with
  | nil => exact List.forall_mem_nil _
  | cons t parts ih =>
    obtain ⟨ht, hparts⟩ := List.forall_mem_cons.1 h
    cases parts with
    | nil => simpa using ht
    | cons u parts =>
      rw [List.intercalate_cons_cons]
      exact List.forall_mem_append.2 ⟨List.forall_mem_append.2 ⟨ht, hsep⟩, ih hparts⟩

/-- A written ranking has no control bytes in front of its newline. -/
theorem noControls_object (ts : List Tally) : (object ts).NoControls := by
  have hmembers : ∀ t ∈ ts.map memberText, t.NoControls :=
    List.forall_mem_map.2 fun t _ => noControls_memberText t
  have hsep : (utf8 ", ").NoControls := by decide
  have hclose : Text.NoControls [Byte.closeBrace] := by decide
  exact List.forall_mem_cons.2
    ⟨by decide, List.forall_mem_append.2 ⟨noControls_intercalate hsep hmembers, hclose⟩⟩

/-- The text of ranked tallies is one object on one line.  It spells a member for each tally, in
their order, and nothing else; a key ends at the quote that was written after it.  So different
tallies have different texts. -/
theorem text_loses_nothing :
    (∀ ts : List Tally, ∃ object : Text,
      text ts = object ++ [Byte.newline] ∧ object.NoControls ∧
      (∀ v, Json.Spells object (.value v) ↔ v = .object (ts.map member)) ∧
      Json.read? (text ts) = some (.object (ts.map member))) ∧
    (∀ key rest, Json.scanQuoted (Json.escape key ++ Byte.quote :: rest) = some (key, rest)) ∧
    Function.Injective text := by
  refine ⟨fun ts => ?_, fun key => (Json.characters_escape key).scanQuoted, fun ts us h => ?_⟩
  · have hspells : ∀ v, Json.Spells (object ts) (.value v) ↔ v = .object (ts.map member) := by
      refine fun v => ⟨fun hv => hv.toElement.unique (spells_object ts).toElement, ?_⟩
      rintro rfl
      exact spells_object ts
    exact ⟨object ts, text_eq ts, noControls_object ts, hspells, (spells_text ts).read?⟩
  · -- One text spells the members of both.
    have hmembers : Json.object (ts.map member) = .object (us.map member) :=
      (spells_text ts).unique (h ▸ spells_text us)
    exact member_injective.list_map (Json.object.inj hmembers)

example : text [([0x22, 0x01, 0xff], 12), (utf8 "b", 3)] =
    utf8 "\x7b\"\\\"\\u0001" ++ [0xff] ++ utf8 "\":12, \"b\":3\x7d\n" := by decide

end Ranking

end QueryStats
