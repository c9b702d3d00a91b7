import QueryStats.Proofs.Bodies

/-!
# Parameters line by line

A text holds parameters if each of its lines is empty or has an equals sign.  Otherwise it is
refused for the first line that is neither.  In a text that is not refused a key has the value that
the last of its lines gives it.
-/

namespace QueryStats

/-! ## Lines -/

namespace Text

/-- A text cut at its newlines.  What follows the last of them is a line only if it is not empty. -/
inductive Cut : Text → List Text → Prop
  | nil : Cut [] []
  | last {l : Text} : l ≠ [] → Byte.newline ∉ l → Cut l [l]
  | line {l t : Text} {ls : List Text} :
    Byte.newline ∉ l → Cut t ls → Cut (l ++ Byte.newline :: t) (l :: ls)

/-- The lines of a cut are the lines that the text is cut into. -/
theorem Cut.eq_contents {t : Text} {ls : List Text} (h : Cut t ls) :
    ls = (lines t).map Line.content := by
  induction h with
  | nil => rfl
  | last hne hl => rw [lines_of_newline_notMem hl hne, List.map_singleton]
  | line hl _ ih => rw [lines_append_cons_newline hl, List.map_cons, ← ih]

/-- Every text can be cut at its newlines. -/
theorem exists_cut (t : Text) : ∃ ls, Cut t ls := by
  induction hn : t.length using Nat.strongRecOn generalizing t with
  | ind n ih =>
    cases h : splitAt? Byte.newline t with
    | none =>
      cases t with
      | nil => exact ⟨[], .nil⟩
      | cons b t => exact ⟨_, .last (List.cons_ne_nil b t) (splitAt?_eq_none_iff.1 h)⟩
    | some p =>
      obtain ⟨rfl, hl⟩ := eq_append_of_splitAt? h
      obtain ⟨ls, hls⟩ := ih p.2.length (by simp [← hn]; omega) p.2 rfl
      exact ⟨_, .line hl hls⟩

/-- There is one way only to cut a text into lines. -/
theorem cut_iff {t : Text} {ls : List Text} : Cut t ls ↔ ls = (lines t).map Line.content := by
  refine ⟨Cut.eq_contents, ?_⟩
  rintro rfl
  obtain ⟨ls, hls⟩ := exists_cut t
  exact hls.eq_contents ▸ hls

end Text

namespace Parameters

/-- The line says what the value of a key is: what stands before its first equals sign is the key
and what stands after it the value, but for blanks at their edges. -/
def Says (line key value : Text) : Prop :=
  ∃ l r : Text, line = l ++ Byte.equals :: r ∧ Byte.equals ∉ l ∧ l.Trims key ∧ r.Trims value

/-- The last of the lines that say what the value of a key is. -/
def LastSays (lines : List Text) (key value : Text) : Prop :=
  ∃ front line back, lines = front ++ line :: back ∧ Says line key value ∧
    ∀ later ∈ back, ∀ other, ¬ Says later key other

section

variable {line key value : Text} {lines : List Text}

/-- A line is read as an assignment exactly if it says so by its first equals sign. -/
theorem assignment?_eq_some_iff : assignment? line = some (key, value) ↔ Says line key value := by
  constructor
  · intro h
    obtain ⟨⟨l, r⟩, hsplit, hp⟩ := Option.map_eq_some_iff.1 h
    obtain ⟨rfl, hl⟩ := Text.eq_append_of_splitAt? hsplit
    obtain ⟨hkey, hvalue⟩ := Prod.mk.inj hp
    exact ⟨l, r, rfl, hl, Text.trim_eq_iff.1 hkey, Text.trim_eq_iff.1 hvalue⟩
  · rintro ⟨l, r, rfl, hl, hkey, hvalue⟩
    rw [assignment?_append hl, Text.trim_eq_iff.2 hkey, Text.trim_eq_iff.2 hvalue]

/-- No blanks are left at the edges of a value. -/
theorem LastSays.isTrimmed (h : LastSays lines key value) : value.isTrimmed := by
  obtain ⟨_, _, _, _, ⟨_, _, _, _, _, hvalue⟩, _⟩ := h
  exact hvalue.1

/-- One more line has the last word on the key that it speaks of, and on no other. -/
theorem lastSays_concat :
    LastSays (lines ++ [line]) key value ↔
      Says line key value ∨ (∀ other, ¬ Says line key other) ∧ LastSays lines key value := by
  constructor
  · rintro ⟨front, l, back, hlines, hsays, hlater⟩
    rcases List.eq_nil_or_concat back with rfl | ⟨back, last, rfl⟩
    · obtain ⟨-, hlast⟩ := List.append_inj' hlines rfl
      obtain rfl := List.singleton_inj.1 hlast
      exact .inl hsays
    · rw [List.concat_eq_append, ← List.cons_append, ← List.append_assoc] at hlines
      obtain ⟨rfl, hlast⟩ := List.append_inj' hlines rfl
      obtain rfl := List.singleton_inj.1 hlast
      exact .inr ⟨hlater line (by simp), front, l, back, rfl, hsays,
        fun m hm => hlater m (by simp [hm])⟩
  · rintro (h | ⟨hno, front, l, back, rfl, hsays, hlater⟩)
    · exact ⟨lines, line, [], rfl, h, by simp⟩
    · refine ⟨front, l, back ++ [line], by simp, hsays, fun m hm => ?_⟩
      rcases List.mem_append.1 hm with hm | hm
      · exact hlater m hm
      · rwa [List.mem_singleton.1 hm]

/-- Looking through the assignments from the end finds what the last line says of a key. -/
theorem lookup_reverse_assignments :
    (lines.filterMap assignment?).reverse.lookup key = some value ↔ LastSays lines key value := by
  induction lines using List.reverseRecOn with
  | nil =>
    refine ⟨fun h => by simp at h, ?_⟩
    rintro ⟨front, line, back, h, -⟩
    simp at h
  | append_singleton lines line ih =>
    rw [List.filterMap_append, List.reverse_append, lastSays_concat, ← ih]
    cases h : assignment? line with
    | none =>
      have hno : ∀ other, ¬ Says line key other := fun other hsays => by
        simp [assignment?_eq_some_iff.2 hsays] at h
      simp [h, hno]
    | some p =>
      obtain ⟨k, v⟩ := p
      have hsays : ∀ other, Says line key other ↔ k = key ∧ v = other := fun other => by
        rw [← assignment?_eq_some_iff, h, Option.some_inj, Prod.mk.injEq]
      by_cases hkey : k = key
      · simp [h, hsays, hkey]
      · have hbeq : (key == k) = false := by simpa using Ne.symm hkey
        simp [h, hsays, hkey, hbeq, List.lookup_cons]

/-- A bad line is found exactly if all lines before it are fine, and its number tells how many they
are. -/
theorem badLine?_eq_some_iff {bad : BadLine} :
    badLine? lines = some bad ↔ ∃ front back, lines = front ++ bad.content :: back ∧
      bad.number = front.length + 1 ∧ isFine bad.content = false ∧ ∀ l ∈ front, isFine l := by
  rw [badLine?, Option.map_eq_some_iff]
  constructor
  · rintro ⟨⟨l, n⟩, hfind, rfl⟩
    obtain ⟨hl, front, back, hsplit, hfront⟩ := List.find?_eq_some_iff_append.1 hfind
    obtain ⟨front, rest, rfl, rfl, hrest⟩ := List.zipIdx_eq_append_iff.1 hsplit
    obtain ⟨l', back, rfl, heq, -⟩ := List.zipIdx_eq_cons_iff.1 hrest.symm
    obtain ⟨rfl, rfl⟩ := Prod.mk.inj heq
    refine ⟨front, back, rfl, Nat.add_comm 1 _, by simpa using hl, ?_⟩
    exact forall_mem_zipIdx.1 fun l hl => by simpa using hfront l hl
  · rintro ⟨front, back, rfl, hnumber, hbad, hfront⟩
    refine ⟨(bad.content, bad.number), List.find?_eq_some_iff_append.2 ⟨by simp [hbad], ?_⟩, rfl⟩
    refine ⟨front.zipIdx 1, back.zipIdx (bad.number + 1), ?_, ?_⟩
    · rw [List.zipIdx_append, List.zipIdx_cons, hnumber, Nat.add_comm 1]
    · exact fun l hl => by simpa using forall_mem_zipIdx (P := (isFine ·)).2 hfront l hl

/-- Lines are refused for the first of them that is neither empty nor has an equals sign. -/
theorem ofLines_eq_error_iff {bad : BadLine} :
    ofLines lines = .error bad ↔ ∃ front back, lines = front ++ bad.content :: back ∧
      bad.number = front.length + 1 ∧ bad.content ≠ [] ∧ Byte.equals ∉ bad.content ∧
      ∀ l ∈ front, l = [] ∨ Byte.equals ∈ l := by
  have hbad : isFine bad.content = false ↔ bad.content ≠ [] ∧ Byte.equals ∉ bad.content := by
    rw [← Bool.not_eq_true, isFine_iff, not_or]
  have herror : ofLines lines = .error bad ↔ badLine? lines = some bad := by
    rw [ofLines]
    cases badLine? lines <;> simp
  simp only [herror, badLine?_eq_some_iff, hbad, isFine_iff, and_assoc]

/-- Lines that are all empty or have an equals sign are read as what the last of them say. -/
theorem ofLines_eq_ok_iff {m : Parameters} :
    ofLines lines = .ok m ↔ (∀ l ∈ lines, l = [] ∨ Byte.equals ∈ l) ∧
      ∀ key value, m[key]? = some value ↔ LastSays lines key value := by
  have hmap : ofPairs (lines.filterMap assignment?) = m ↔
      ∀ key value, m[key]? = some value ↔ LastSays lines key value := by
    simp only [← lookup_reverse_assignments, ← getElem?_ofPairs]
    constructor
    · rintro rfl key value
      rfl
    · intro h
      exact Std.ExtTreeMap.ext_getElem? fun key => Option.ext fun value => (h key value).symm
  simp only [ofLines_eq_ok_iff_isFine, hmap, isFine_iff]

/-- Where every line is empty or has an equals sign, something is read. -/
theorem exists_ofLines_eq_ok (h : ∀ l ∈ lines, l = [] ∨ Byte.equals ∈ l) :
    ∃ m, ofLines lines = .ok m :=
  ⟨_, ofLines_eq_ok_iff_isFine.2 ⟨fun l hl => isFine_iff.2 (h l hl), rfl⟩⟩

/-- Lines are refused exactly if one of them is neither empty nor has an equals sign. -/
theorem exists_ofLines_eq_error_iff :
    (∃ bad, ofLines lines = .error bad) ↔ ∃ l ∈ lines, l ≠ [] ∧ Byte.equals ∉ l := by
  constructor
  · rintro ⟨bad, hbad⟩
    obtain ⟨front, back, rfl, -, hne, hequals, -⟩ := ofLines_eq_error_iff.1 hbad
    exact ⟨bad.content, by simp, hne, hequals⟩
  · rintro ⟨l, hl, hne, hequals⟩
    cases h : ofLines lines with
    | error bad => exact ⟨bad, rfl⟩
    | ok m => exact absurd ((ofLines_eq_ok_iff.1 h).1 l hl) (not_or.2 ⟨hne, hequals⟩)

end

/-! ## Texts -/

/-- A text is read or refused by its lines, each without one carriage return at its end.  It is
refused if one of them is neither empty nor has an equals sign, and then the first such line is all
that is reported.  Otherwise nothing is reported, and the value of a key is what the last line that
speaks of it says. -/
theorem reads_line_by_line (t : Text) :
    let lines := t.lines.map Line.body
    (∀ ls, t.Cut ls ↔ ls = t.lines.map Line.content) ∧
    ((∃ bad, ofText t = .error bad) ↔ ∃ l ∈ lines, l ≠ [] ∧ Byte.equals ∉ l) ∧
    (∀ bad, ofText t = .error bad →
      (∃ front back, lines = front ++ bad.content :: back ∧ bad.number = front.length + 1 ∧
        bad.content ≠ [] ∧ Byte.equals ∉ bad.content ∧ ∀ l ∈ front, l = [] ∨ Byte.equals ∈ l) ∧
      notices t = [.invalidLine bad.number bad.content] ∧
      Message.transcript (notices t) = utf8 "parse_parameters_from_body: invalid line "
        ++ Text.ofNat bad.number ++ utf8 ": " ++ bad.content ++ [Byte.newline]) ∧
    ∀ m, ofText t = .ok m →
      (∀ key value, m[key]? = some value ↔ LastSays lines key value) ∧ notices t = [] := by
  intro lines
  refine ⟨fun ls => Text.cut_iff, exists_ofLines_eq_error_iff, ?_, ?_⟩
  · intro bad h
    have hnotices : notices t = [bad.message] := by rw [notices, h]
    refine ⟨ofLines_eq_error_iff.1 h, hnotices, ?_⟩
    rw [hnotices]
    exact List.append_nil _
  · intro m h
    refine ⟨(ofLines_eq_ok_iff.1 h).2, ?_⟩
    rw [notices, h]

/-- A text with an empty line and a key that comes twice, and one whose third line is bad. -/
theorem reads_line_by_line_of_two :
    let good := utf8 " a = 1 \n\nb=2=3\r\na\t=4"
    let bad := utf8 "a=1\r\n\n broken \nc"
    (∃ m, ofText good = .ok m ∧ notices good = [] ∧
      LastSays (good.lines.map Line.body) (utf8 "a") (utf8 "4") ∧
      LastSays (good.lines.map Line.body) (utf8 "b") (utf8 "2=3")) ∧
    bad.Cut [utf8 "a=1\r", [], utf8 " broken ", utf8 "c"] ∧
    notices bad = [.invalidLine 3 (utf8 " broken ")] := by
  intro good bad
  have hgood : ∃ m, ofText good = .ok m ∧ m[utf8 "a"]? = some (utf8 "4") ∧
      m[utf8 "b"]? = some (utf8 "2=3") := ⟨_, rfl, by decide, by decide⟩
  have hbad : ofText bad = .error ⟨3, utf8 " broken "⟩ := by rfl
  obtain ⟨m, hm, ha, hb⟩ := hgood
  obtain ⟨-, -, -, hread⟩ := reads_line_by_line good
  obtain ⟨hlast, hnotices⟩ := hread m hm
  obtain ⟨hcut, -, hrefused, -⟩ := reads_line_by_line bad
  exact ⟨⟨m, hm, hnotices, (hlast _ _).1 ha, (hlast _ _).1 hb⟩, (hcut _).2 (by decide),
    (hrefused _ hbad).2.1⟩

end Parameters

end QueryStats
