import QueryStats.Proofs.Layouts
import QueryStats.Proofs.Rendering
import QueryStats.Report

/-!
# The text of figures

Figures are written as an object of the interchange format whenever all of them are finite: an
infinity and a NaN have no number in the grammar.  From the object they can be read again, each
under its name and rounded to its digits.
-/

namespace QueryStats

open Json (IsDigits Fraction Exponent Magnitude Number Spells Characters AreBlanks)
open Double (valueOf)

namespace Report

/-! ## Elements of an array -/

/-- What may stand between the commas of an array. -/
structure IsElement (t : Text) : Prop where
  ne_nil : t ≠ []
  comma_notMem : Byte.comma ∉ t

instance (t : Text) : Decidable (IsElement t) :=
  decidable_of_iff (t ≠ [] ∧ Byte.comma ∉ t) ⟨fun h => ⟨h.1, h.2⟩, fun h => ⟨h.1, h.2⟩⟩

/-- An array of so many elements. -/
def IsArray (n : Nat) (t : Text) : Prop :=
  ∃ ts : List Text, ts.length = n ∧ (∀ e ∈ ts, IsElement e) ∧
    t = utf8 "[" ++ List.intercalate (utf8 ", ") ts ++ utf8 "]"

section

variable {t u ds : Text} {v : Json} {d : Decimal} {e : Int}

/-- More of an element may follow, as long as it has no comma. -/
theorem IsElement.append (h : IsElement t) (hu : Byte.comma ∉ u) : IsElement (t ++ u) :=
  ⟨fun hnil => h.ne_nil (List.append_eq_nil_iff.1 hnil).1, List.not_mem_append h.comma_notMem hu⟩

/-- Digits have no comma. -/
theorem isElement_of_isDigits (h : IsDigits ds) : IsElement ds :=
  ⟨h.ne_nil, fun hmem => absurd (h.digits _ hmem) (by decide)⟩

/-- A fraction starts with a point and goes on in digits. -/
theorem comma_notMem_of_fraction (h : Fraction t ds) : Byte.comma ∉ t := by
  cases h with
  | none => exact List.not_mem_nil
  | point hds =>
    exact List.not_mem_cons_of_ne_of_not_mem (by decide) (isElement_of_isDigits hds).comma_notMem

/-- An exponent has a letter, a sign and digits. -/
theorem comma_notMem_of_exponent (h : Exponent t e) : Byte.comma ∉ t := by
  cases h with
  | none => exact List.not_mem_nil
  | @power b s ds negative hb hs hds =>
    have hletter : Byte.comma ≠ b := by
      rcases hb with rfl | rfl <;> decide
    have hsign : Byte.comma ∉ s := by
      cases hs <;> decide
    exact List.not_mem_cons_of_ne_of_not_mem hletter
      (List.not_mem_append hsign (isElement_of_isDigits hds).comma_notMem)

/-- A number without its sign has no comma. -/
theorem isElement_of_magnitude (h : Magnitude t d) : IsElement t := by
  cases h with
  | mk hwhole zero hf he =>
    exact ((isElement_of_isDigits hwhole).append (comma_notMem_of_fraction hf)).append
      (comma_notMem_of_exponent he)

/-- A sign is no comma either. -/
theorem isElement_of_number (h : Number t v) : IsElement t := by
  cases h with
  | positive h => exact isElement_of_magnitude h
  | negative h =>
    exact ⟨List.cons_ne_nil _ _,
      List.not_mem_cons_of_ne_of_not_mem (by decide) (isElement_of_magnitude h).comma_notMem⟩

end

/-- Whatever double is printed, its text can stand in an array. -/
theorem isElement_number (x : Float) : IsElement (number x) := by
  rcases figure.exists_number_or_mem (by decide) x with ⟨v, hv⟩ | hword
  · exact isElement_of_number hv
  · obtain ⟨s, hs | hs⟩ := hword
    · rw [number, hs]
      cases s <;> decide
    · rw [number, hs]
      cases s <;> decide

/-- A series is printed as an array with an element for each of its values. -/
theorem isArray_numbers (xs : List Float) : IsArray xs.length (numbers xs) := by
  refine ⟨xs.map number, List.length_map _, ?_, rfl⟩
  exact List.forall_mem_map.2 fun x _ => isElement_number x

/-- A report as it is printed: between braces six arrays of so many elements, each on a line of its
own behind its name. -/
inductive IsReport (n : Nat) : Text → Prop
  | mk {queries blocked safeBrowsing safeSearch parental averageTime : Text} :
    IsArray n queries → IsArray n blocked → IsArray n safeBrowsing → IsArray n safeSearch →
    IsArray n parental → IsArray n averageTime →
    IsReport n (utf8 "\x7b\n  \"dns_queries\": " ++ queries
      ++ utf8 ",\n  \"blocked_filtering\": " ++ blocked
      ++ utf8 ",\n  \"replaced_safebrowsing\": " ++ safeBrowsing
      ++ utf8 ",\n  \"replaced_safesearch\": " ++ safeSearch
      ++ utf8 ",\n  \"replaced_parental\": " ++ parental
      ++ utf8 ",\n  \"avg_processing_time\": " ++ averageTime ++ utf8 "\n\x7d\n")

/-- Series of one length are printed as a report of that length. -/
theorem isReport_ofSeries {n : Nat} {r : Figures (List Float)}
    (h : ∀ figure ∈ r.named, figure.2.length = n) : IsReport n (ofSeries r) := by
  have harrays : ∀ figure ∈ r.named, IsArray n (numbers figure.2) := fun figure hfigure =>
    h figure hfigure ▸ isArray_numbers figure.2
  simp only [Figures.named, List.forall_mem_cons] at harrays
  obtain ⟨hqueries, hblocked, hbrowsing, hsearch, hparental, htime, -⟩ := harrays
  convert IsReport.mk hqueries hblocked hbrowsing hsearch hparental htime using 1
  simp only [ofSeries, object, Figures.named, Figures.map, member, List.map_cons, List.map_nil,
    List.intercalate_cons_cons, List.intercalate_singleton, List.append_assoc]
  rfl

/-! ## Arrays and objects -/

/-- The blank after a comma belongs to the element behind it. -/
theorem spells_elements {a t : Text} {v : Json} {ts : List Text} {vs : List Json}
    (ha : AreBlanks a) (ht : Spells t (.value v))
    (h : List.Forall₂ (fun t v => Spells t (.value v)) ts vs) :
    Spells (a ++ List.intercalate (utf8 ", ") (t :: ts)) (.elements (v :: vs)) := by
  have hfirst : ∀ {a t : Text} {v : Json}, AreBlanks a → Spells t (.value v) →
      Spells (a ++ t) (.element v) := by
    intro a t v ha ht
    simpa using Spells.element ha ht Json.areBlanks_nil
  induction h generalizing a t v with
  | nil => simpa using Spells.lastElement (hfirst ha ht)
  | cons hu _ ih =>
    have hblank : AreBlanks [0x20] := by decide
    have hcomma : utf8 ", " = [Byte.comma, 0x20] := rfl
    simpa [List.intercalate_cons_cons, hcomma] using (hfirst ha ht).elements (ih hblank hu)

/-- Values with commas between them, in brackets, are an array. -/
theorem spells_array {ts : List Text} {vs : List Json}
    (h : List.Forall₂ (fun t v => Spells t (.value v)) ts vs) :
    Spells (utf8 "[" ++ List.intercalate (utf8 ", ") ts ++ utf8 "]") (.value (.array vs)) := by
  have hopen : utf8 "[" = [Byte.openBracket] := rfl
  have hclose : utf8 "]" = [Byte.closeBracket] := rfl
  rw [hopen, hclose]
  cases h with
  | nil => exact .emptyArray Json.areBlanks_nil
  | cons ht hts => exact .array (spells_elements Json.areBlanks_nil ht hts)

/-- A member as it is written, and as it is meant. -/
structure SpellsMember (t : Text × Text) (m : Text × Json) : Prop where
  key : Characters t.1 m.1
  value : Spells t.2 (.value m.2)

/-- A member is indented, and a blank stands in front of its value. -/
theorem SpellsMember.spells {t : Text × Text} {m : Text × Json} (h : SpellsMember t m) {b : Text}
    (hb : AreBlanks b) :
    Spells (Byte.newline :: (member t ++ b)) (.member m.1 m.2) := by
  have hindent : AreBlanks [Byte.newline, 0x20, 0x20] := by decide
  have hblank : AreBlanks [0x20] := by decide
  have hquote : utf8 "  \"" = [0x20, 0x20, Byte.quote] := rfl
  have hcolon : utf8 "\": " = [Byte.quote, Byte.colon, 0x20] := rfl
  have hm := Spells.member hindent h.key Json.areBlanks_nil (.element hblank h.value hb)
  simpa [member, hquote, hcolon] using hm

/-- Each member stands on a line of its own. -/
theorem spells_members {t : Text × Text} {m : Text × Json} {ts : List (Text × Text)}
    {ms : List (Text × Json)} (ht : SpellsMember t m) (h : List.Forall₂ SpellsMember ts ms) :
    Spells (Byte.newline ::
        (List.intercalate (utf8 ",\n") ((t :: ts).map member) ++ [Byte.newline]))
      (.members (m :: ms)) := by
  induction h generalizing t m with
  | nil =>
    have hblank : AreBlanks [Byte.newline] := by decide
    simpa using Spells.lastMember (ht.spells hblank)
  | cons hu _ ih =>
    have hcomma : utf8 ",\n" = [Byte.comma, Byte.newline] := rfl
    have hm := (ht.spells Json.areBlanks_nil).members (ih hu)
    simpa [List.intercalate_cons_cons, hcomma] using hm

/-- Six members, between braces on lines of their own, are an object. -/
theorem spells_object {r : Figures Text} {ms : List (Text × Json)}
    (h : List.Forall₂ SpellsMember r.named ms) : Spells (object r) (.element (.object ms)) := by
  have hopen : utf8 "\x7b\n" = [Byte.openBrace, Byte.newline] := rfl
  have hclose : utf8 "\n\x7d\n" = [Byte.newline, Byte.closeBrace, Byte.newline] := rfl
  have hblank : AreBlanks [Byte.newline] := by decide
  rw [Figures.named] at h
  cases h with
  | cons ht hts =>
    have hobject := Spells.element Json.areBlanks_nil (.object (spells_members ht hts)) hblank
    simpa [object, Figures.named, hopen, hclose] using hobject

/-! ## Finite figures -/

/-- A value says one after the other what the figures of a series are. -/
def ShowsSeries (xs : List Float) (v : Json) : Prop :=
  ∃ vs, v = .array vs ∧ List.Forall₂ (Shows 15) xs vs

/-- A finite figure is printed as a number that shows it. -/
theorem exists_spells_number {x : Float} (h : x.isFinite) :
    ∃ v, Spells (number x) (.value v) ∧ Shows 15 x v := by
  obtain ⟨v, hv, hshows⟩ := figure.exists_number (by decide) h
  exact ⟨v, .number hv, hshows⟩

/-- Finite figures are printed as an array that shows them one by one. -/
theorem exists_spells_numbers {xs : List Float} (h : ∀ x ∈ xs, x.isFinite) :
    ∃ v, Spells (numbers xs) (.value v) ∧ ShowsSeries xs v := by
  have hvs : ∃ vs, List.Forall₂ (fun t v => Spells t (.value v)) (xs.map number) vs ∧
      List.Forall₂ (Shows 15) xs vs := by
    induction xs with
    | nil => exact ⟨[], .nil, .nil⟩
    | cons x xs ih =>
      obtain ⟨hx, hxs⟩ := List.forall_mem_cons.1 h
      obtain ⟨v, hv, hshows⟩ := exists_spells_number hx
      obtain ⟨vs, hvs, hall⟩ := ih hxs
      exact ⟨v :: vs, .cons hv hvs, .cons hshows hall⟩
  obtain ⟨vs, hvs, hall⟩ := hvs
  exact ⟨_, spells_array hvs, vs, rfl, hall⟩

/-- The six names need no escapes. -/
theorem characters_name {α : Type} {r : Figures α} {m : Text × α} (h : m ∈ r.named) :
    Characters m.1 m.1 := by
  have hplain : ∀ name ∈ (Figures.named ⟨(), (), (), (), (), ()⟩).map (·.1),
      Json.escape name = name := by decide
  have hname : m.1 ∈ (Figures.named ⟨(), (), (), (), (), ()⟩).map (·.1) :=
    List.mem_map_of_mem h
  have hc := Json.characters_escape m.1
  rwa [hplain m.1 hname] at hc

section

variable {α : Type} {R : α → Json → Prop} {r : Figures α}

/-- The members of an object say under the name of each figure what `R` asks of it. -/
def Tells (R : α → Json → Prop) (r : Figures α) (ms : List (Text × Json)) : Prop :=
  List.Forall₂ (fun m n => n.1 = m.1 ∧ R m.2 n.2) r.named ms

/-- The members of the object have the names of the figures, in their order. -/
theorem Tells.names {ms : List (Text × Json)} (h : Tells R r ms) :
    ms.map (·.1) = r.named.map (·.1) := by
  rw [← List.forall₂_eq_eq_eq, List.forall₂_map_left_iff, List.forall₂_map_right_iff]
  exact h.flip.imp fun _ _ hm => hm.1

/-- An object has the six names, in their order. -/
theorem exists_spells_object {f : α → Text}
    (h : ∀ m ∈ r.named, ∃ v, Spells (f m.2) (.value v) ∧ R m.2 v) :
    ∃ ms, Spells (object (r.map f)) (.element (.object ms)) ∧ Tells R r ms := by
  have hms : ∀ ns ⊆ r.named, ∃ ms,
      List.Forall₂ SpellsMember (ns.map fun m => (m.1, f m.2)) ms ∧
      List.Forall₂ (fun m n => n.1 = m.1 ∧ R m.2 n.2) ns ms := by
    intro ns hns
    induction ns with
    | nil => exact ⟨[], .nil, .nil⟩
    | cons m ns ih =>
      obtain ⟨hm, hns⟩ := List.cons_subset.1 hns
      obtain ⟨v, hv, hR⟩ := h m hm
      obtain ⟨ms, hms, hall⟩ := ih hns
      have hname : Characters m.1 m.1 := characters_name hm
      exact ⟨(m.1, v) :: ms, .cons ⟨hname, hv⟩ hms, .cons ⟨rfl, hR⟩ hall⟩
  obtain ⟨ms, hms, htells⟩ := hms r.named (List.Subset.refl _)
  exact ⟨ms, spells_object hms, htells⟩

end

/-- A finite report is printed as an object that tells its series. -/
theorem exists_tells_ofSeries {r : Figures (List Float)}
    (h : ∀ m ∈ r.named, ∀ x ∈ m.2, x.isFinite) :
    ∃ ms, Spells (ofSeries r) (.element (.object ms)) ∧ Tells ShowsSeries r ms :=
  exists_spells_object fun m hm => exists_spells_numbers (h m hm)

/-- A finite summary is printed as an object that tells its figures. -/
theorem exists_tells_ofSummary {r : Figures Float} (h : ∀ m ∈ r.named, m.2.isFinite) :
    ∃ ms, Spells (ofSummary r) (.element (.object ms)) ∧ Tells (Shows 15) r ms :=
  exists_spells_object fun m hm => exists_spells_number (h m hm)

/-- A finite report is printed as an object with the six names. -/
theorem exists_spells_ofSeries {r : Figures (List Float)}
    (h : ∀ m ∈ r.named, ∀ x ∈ m.2, x.isFinite) :
    ∃ ms, Spells (ofSeries r) (.element (.object ms)) ∧ ms.map (·.1) = r.named.map (·.1) := by
  obtain ⟨ms, hms, htells⟩ := exists_tells_ofSeries h
  exact ⟨ms, hms, htells.names⟩

/-- A finite summary is printed as an object with the six names. -/
theorem exists_spells_ofSummary {r : Figures Float} (h : ∀ m ∈ r.named, m.2.isFinite) :
    ∃ ms, Spells (ofSummary r) (.element (.object ms)) ∧ ms.map (·.1) = r.named.map (·.1) := by
  obtain ⟨ms, hms, htells⟩ := exists_tells_ofSummary h
  exact ⟨ms, hms, htells.names⟩

/-! ## Figures read back -/

/-- What a text is read as: an object with the six names in their order, and a value under each that
`R` asks for.  The text spells no other value. -/
def ReadsBack {α : Type} (R : α → Json → Prop) (r : Figures α) (t : Text) : Prop :=
  ∃ ms, Json.read? t = some (.object ms) ∧ (∀ v, Spells t (.element v) ↔ v = .object ms) ∧
    ms.map (·.1) = [utf8 "dns_queries", utf8 "blocked_filtering", utf8 "replaced_safebrowsing",
      utf8 "replaced_safesearch", utf8 "replaced_parental", utf8 "avg_processing_time"] ∧
    List.Forall₂ R [r.queries, r.blocked, r.safeBrowsing, r.safeSearch, r.parental, r.averageTime]
      (ms.map (·.2))

/-- What the object tells is what the text is read as, since the grammar is unambiguous. -/
theorem Tells.readsBack {α : Type} {R : α → Json → Prop} {r : Figures α} {t : Text}
    {ms : List (Text × Json)} (h : Tells R r ms) (ht : Spells t (.element (.object ms))) :
    ReadsBack R r t := by
  refine ⟨ms, ht.read?, fun v => ⟨fun hv => hv.unique ht, fun hv => hv ▸ ht⟩, h.names, ?_⟩
  have hvalues : List.Forall₂ R (r.named.map (·.2)) (ms.map (·.2)) := by
    rw [List.forall₂_map_left_iff, List.forall₂_map_right_iff]
    exact h.imp fun _ _ hm => hm.2
  exact hvalues

/-- Finite figures can be read from their text again, series with as many numbers as there were.
Each number is the figure rounded to 15 significant digits, so that whole numbers with no more
digits than that are read back exactly. -/
theorem figures_are_read_back {r : Figures (List Float)} {s : Figures Float}
    (hr : ∀ m ∈ r.named, ∀ x ∈ m.2, x.isFinite) (hs : ∀ m ∈ s.named, m.2.isFinite) :
    ReadsBack ShowsSeries r (ofSeries r) ∧ ReadsBack (Shows 15) s (ofSummary s) ∧
    ∀ x v, Shows 15 x v → ∀ z : ℤ, |z| < 10 ^ 15 → valueOf x = z → v.toRat? = some (z : ℚ) := by
  obtain ⟨ms, hms, htells⟩ := exists_tells_ofSeries hr
  obtain ⟨ns, hns, htells'⟩ := exists_tells_ofSummary hs
  exact ⟨htells.readsBack hms, htells'.readsBack hns, fun x v h z hz hx => h.toRat?_eq hz hx⟩

/-- Series of different lengths, with a zero below zero, the least double and numbers that are
rounded. -/
theorem figures_are_read_back_of_six :
    let r : Figures (List Float) :=
      ⟨[], [0.1, -0.0], [123456789012345], [1e22, 2.5e-7], [5e-324], [-1.5, 99999999999999.95]⟩
    let s : Figures Float := ⟨999999999999999, 1e15, 0, -0.0, 1e308, 0.3⟩
    (∀ m ∈ r.named, ∀ x ∈ m.2, x.isFinite) ∧ (∀ m ∈ s.named, m.2.isFinite) ∧
    ReadsBack ShowsSeries r (ofSeries r) ∧ ReadsBack (Shows 15) s (ofSummary s) := by
  intro r s
  have hr : ∀ m ∈ r.named, ∀ x ∈ m.2, x.isFinite := by decide +kernel
  have hs : ∀ m ∈ s.named, m.2.isFinite := by decide +kernel
  obtain ⟨hseries, hsummary, -⟩ := figures_are_read_back hr hs
  exact ⟨hr, hs, hseries, hsummary⟩

end Report

end QueryStats
