import QueryStats.Proofs.Bodies

/-!
# Blanks put at the edges of a line

Blanks at the edges of a line do not matter to the parameters of a text as long as there is
something else on the line.  They do matter on an empty line: only a line without anything, or with
nothing but a carriage return, is passed over, and other blanks make of it a line that spoils the
text.
-/

namespace QueryStats

namespace Parameters

/-- Nothing is on the line, but for a carriage return. -/
def IsPassedOver (line : Text) : Prop := line = [] ∨ line = [Byte.carriageReturn]

instance : DecidablePred IsPassedOver := fun _ => inferInstanceAs (Decidable (_ ∨ _))

/-- Two texts are read as the same parameters, or both are refused. -/
def ReadAlike (t u : Text) : Prop := ∀ m, ofText t = .ok m ↔ ofText u = .ok m

/-- What stands around a line of a text: lines that end in front of it, and nothing behind it or the
newline that ends it. -/
structure Surrounds (front back : Text) : Prop where
  front : front = [] ∨ front.getLast? = some Byte.newline
  back : back = [] ∨ back.head? = some Byte.newline

/-! ## One line among others -/

section

variable {front back line a b : Text} {m : Parameters}

/-- What lines assign, in their order. -/
def assignments (ls : List Line) : List (Text × Text) :=
  (ls.map Line.content).filterMap assignment?

/-- Lines assign one after the other. -/
theorem assignments_append (ls ms : List Line) :
    assignments (ls ++ ms) = assignments ls ++ assignments ms := by
  simp [assignments]

/-- A line is at the front of what starts with it, unless there is nothing at all. -/
theorem lines_of_line (h : Surrounds front back) (hline : Byte.newline ∉ line) :
    (∃ terminated, Text.lines (line ++ back) = ⟨line, terminated⟩ :: Text.lines back.tail) ∨
      line = [] ∧ back = [] := by
  rcases h.back with rfl | hback
  · rw [List.append_nil]
    by_cases hne : line = []
    · exact .inr ⟨hne, rfl⟩
    · exact .inl ⟨false, Text.lines_of_newline_notMem hline hne⟩
  · obtain ⟨back, rfl⟩ := List.head?_eq_some_iff.1 hback
    exact .inl ⟨true, Text.lines_append_cons_newline hline back⟩

/-- A text is read by what stands around a line, and by what is on the line. -/
theorem ofText_eq_ok_iff_line (h : Surrounds front back) (hline : Byte.newline ∉ line) :
    ofText (front ++ line ++ back) = .ok m ↔
      (∀ l ∈ Text.lines front ++ Text.lines back.tail, isFine l.body) ∧
      isFine (Line.mk line true).body ∧
      ofPairs (assignments front.lines ++
        ((assignment? line).toList ++ assignments (Text.lines back.tail))) = m := by
  rw [List.append_assoc, ofText_eq_ok_iff, ← assignments, Text.lines_append h.front,
    assignments_append, List.forall_mem_append, List.forall_mem_append, and_assoc, and_assoc]
  refine and_congr_right fun _ => ?_
  rcases lines_of_line h hline with ⟨terminated, hlines⟩ | ⟨rfl, rfl⟩
  · have hpair : assignments (⟨line, terminated⟩ :: Text.lines back.tail) =
        (assignment? line).toList ++ assignments (Text.lines back.tail) := by
      cases hp : assignment? line <;> simp [assignments, hp]
    have hbody : (Line.mk line terminated).body = (Line.mk line true).body := rfl
    rw [hlines, hpair, List.forall_mem_cons, hbody, and_comm (a := isFine _ = true), and_assoc]
  · simp [isFine, Line.body, assignment?, Text.splitAt?]

/-! ## Blanks at its edges -/

/-- Nothing is assigned on a line that is passed over. -/
theorem IsPassedOver.equals (h : IsPassedOver line) : Byte.equals ∉ line := by
  rcases h with rfl | rfl <;> decide

/-- A line that is passed over is blank. -/
theorem IsPassedOver.isBlank (h : IsPassedOver line) : line.IsBlank := by
  rcases h with rfl | rfl
  · exact isPadding_nil.isBlank
  · exact isPadding_carriageReturn.isBlank

/-- A line that is passed over with its padding is passed over without it. -/
theorem IsPassedOver.of_padding (h : IsPassedOver (a ++ line ++ b)) : IsPassedOver line := by
  rcases h with h | h
  · exact .inl (List.append_eq_nil_iff.1 (List.append_eq_nil_iff.1 h).1).2
  · rcases List.append_eq_singleton_iff.1 h with ⟨h, -⟩ | ⟨h, -⟩
    · exact .inl (List.append_eq_nil_iff.1 h).2
    · exact (List.append_eq_singleton_iff.1 h).symm.imp And.right And.right

/-- A line does no harm if it is passed over or assigns something. -/
theorem isFine_body_iff :
    isFine (Line.mk line true).body ↔ IsPassedOver line ∨ Byte.equals ∈ line := by
  have hne : Byte.equals ≠ Byte.carriageReturn := by decide
  rw [isFine_iff]
  rcases List.eq_nil_or_concat line with rfl | ⟨l, c, rfl⟩
  · simp [Line.body, IsPassedOver]
  · by_cases hc : c = Byte.carriageReturn
    · simp [Line.body, IsPassedOver, hc, hne]
    · have hother : l ++ [c] ≠ [Byte.carriageReturn] := fun h =>
        hc (by simpa using congrArg List.getLast? h)
      simp [Line.body, IsPassedOver, hc, hother]

/-- Blanks at the edges of a line do no harm unless the line was passed over and no longer is. -/
theorem isFine_padding_iff (ha : IsPadding a) (hb : IsPadding b) :
    isFine (Line.mk (a ++ line ++ b) true).body ↔
      isFine (Line.mk line true).body ∧ (IsPassedOver line → IsPassedOver (a ++ line ++ b)) := by
  have hequals : Byte.equals ∈ a ++ line ++ b ↔ Byte.equals ∈ line := by
    simp [ha.equals, hb.equals]
  rw [isFine_body_iff, isFine_body_iff, hequals]
  constructor
  · rintro (h | h)
    · exact ⟨.inl h.of_padding, fun _ => h⟩
    · exact ⟨.inr h, fun hline => absurd h hline.equals⟩
  · rintro ⟨h | h, hpass⟩
    · exact .inl (hpass h)
    · exact .inr h

/-- A padded text can be read if the plain one can, and if the line is not passed over by the plain
one only. -/
theorem ofText_padding_eq_ok_iff (h : Surrounds front back) (hline : Byte.newline ∉ line)
    (ha : IsPadding a) (hb : IsPadding b) :
    ofText (front ++ (a ++ line ++ b) ++ back) = .ok m ↔
      ofText (front ++ line ++ back) = .ok m ∧
        (IsPassedOver line → IsPassedOver (a ++ line ++ b)) := by
  have hline' : Byte.newline ∉ a ++ line ++ b := by simp [ha.newline, hline, hb.newline]
  rw [ofText_eq_ok_iff_line h hline', ofText_eq_ok_iff_line h hline, assignment?_padding ha hb,
    isFine_padding_iff ha hb]
  constructor
  · rintro ⟨hothers, ⟨hfine, hpass⟩, hm⟩
    exact ⟨⟨hothers, hfine, hm⟩, hpass⟩
  · rintro ⟨⟨hothers, hfine, hm⟩, hpass⟩
    exact ⟨hothers, ⟨hfine, hpass⟩, hm⟩

end

/-- Blanks at the edges of a line do not matter where something else is on it.  They matter exactly
where they come to a line that was passed over, in a text that could be read, and it no longer is:
then the text is refused. -/
theorem edges_matter_on_empty_lines_only {front line back a b : Text} (h : Surrounds front back)
    (hline : Byte.newline ∉ line) (ha : IsPadding a) (hb : IsPadding b) :
    let before := front ++ line ++ back
    let after := front ++ (a ++ line ++ b) ++ back
    (¬line.IsBlank → ReadAlike before after) ∧
    (ReadAlike before after ↔
      (IsPassedOver line → ¬IsPassedOver (a ++ line ++ b) → ∀ m, ofText before ≠ .ok m)) ∧
    (IsPassedOver line → ¬IsPassedOver (a ++ line ++ b) → ∃ bad, ofText after = .error bad) := by
  intro before after
  have hafter : ∀ m, ofText after = .ok m ↔
      ofText before = .ok m ∧ (IsPassedOver line → IsPassedOver (a ++ line ++ b)) :=
    fun m => ofText_padding_eq_ok_iff h hline ha hb
  have hiff : ReadAlike before after ↔
      (IsPassedOver line → ¬IsPassedOver (a ++ line ++ b) → ∀ m, ofText before ≠ .ok m) := by
    constructor
    · intro halike hpassed hnot m hm
      exact hnot (((hafter m).1 ((halike m).1 hm)).2 hpassed)
    · intro hrefused m
      rw [hafter]
      refine ⟨fun hm => ⟨hm, fun hpassed => ?_⟩, And.left⟩
      by_contra hnot
      exact hrefused hpassed hnot m hm
  refine ⟨fun hblank => hiff.2 fun hpassed => absurd hpassed.isBlank hblank, hiff, ?_⟩
  intro hpassed hnot
  cases hread : ofText after with
  | error bad => exact ⟨bad, rfl⟩
  | ok m => exact absurd (((hafter m).1 hread).2 hpassed) hnot

/-- Blanks around the second of three lines, and a carriage return on a line of its own. -/
theorem edges_matter_on_empty_lines_only_in_three :
    let front := utf8 "a=1\n"
    let back := utf8 "\nc=3"
    Surrounds front back ∧ Byte.newline ∉ utf8 "b = 2" ∧ IsPadding (utf8 " \t") ∧
    IsPadding (utf8 "\r\r") ∧
    ReadAlike (front ++ utf8 "b = 2" ++ back)
      (front ++ (utf8 " \t" ++ utf8 "b = 2" ++ utf8 "\r\r") ++ back) ∧
    ReadAlike (front ++ [] ++ back) (front ++ ([] ++ [] ++ utf8 "\r") ++ back) := by
  intro front back
  have h : Surrounds front back := ⟨by decide, by decide⟩
  have hline : Byte.newline ∉ utf8 "b = 2" := by decide
  have ha : IsPadding (utf8 " \t") := by decide
  have hb : IsPadding (utf8 "\r\r") := by decide
  have hfilled : ¬(utf8 "b = 2").IsBlank := fun hblank =>
    absurd (hblank Byte.equals (by decide)) (by decide)
  obtain ⟨hkept, -, -⟩ := edges_matter_on_empty_lines_only h hline ha hb
  have hnone : Byte.newline ∉ ([] : Text) := List.not_mem_nil
  have hreturn : IsPadding (utf8 "\r") := by decide
  obtain ⟨-, hempty, -⟩ := edges_matter_on_empty_lines_only h hnone isPadding_nil hreturn
  exact ⟨h, hline, ha, hb, hkept hfilled, hempty.2 fun _ hnot => absurd (.inr rfl) hnot⟩

/-- A blank on an empty line spoils a text that could be read. -/
theorem blank_on_empty_line_spoils :
    let before := utf8 "a=1\n" ++ [] ++ utf8 "\nb=2\n"
    let after := utf8 "a=1\n" ++ (utf8 " " ++ [] ++ []) ++ utf8 "\nb=2\n"
    IsPadding (utf8 " ") ∧ (∃ m, ofText before = .ok m) ∧
    ofText after = .error ⟨2, utf8 " "⟩ ∧ ¬ReadAlike before after := by
  intro before after
  have hbefore : ∃ m, ofText before = .ok m := ⟨_, rfl⟩
  have hafter : ofText after = .error ⟨2, utf8 " "⟩ := by rfl
  refine ⟨by decide, hbefore, hafter, fun halike => ?_⟩
  obtain ⟨m, hm⟩ := hbefore
  have hread := (halike m).1 hm
  rw [hafter] at hread
  cases hread

end Parameters

end QueryStats
