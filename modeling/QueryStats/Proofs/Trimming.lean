import Mathlib.Data.List.DropRight
import QueryStats.Text.Line

/-!
# Blanks at the edges of lines

Trimming a text takes off the blanks at its edges and nothing else.  A carriage return at the end of
a line is a blank like others once the line is trimmed.
-/

namespace QueryStats

namespace Text

/-- Neither the first byte nor the last is a blank. -/
def isTrimmed (t : Text) : Bool :=
  t.head?.all (!Byte.isBlank ·) && t.getLast?.all (!Byte.isBlank ·)

/-- Nothing but blanks. -/
def IsBlank (t : Text) : Prop := ∀ b ∈ t, Byte.isBlank b

/-- A text without the blanks at its edges. -/
def Trims (t u : Text) : Prop := u.isTrimmed ∧ ∃ a b, IsBlank a ∧ IsBlank b ∧ t = a ++ u ++ b

/-! ## Trimming -/

section

variable {t u : Text}

/-- Blanks in front are trimmed. -/
theorem trimStart_append (h : IsBlank t) (u : Text) : trimStart (t ++ u) = trimStart u :=
  List.dropWhile_append_of_pos h

/-- Blanks at the end are trimmed. -/
theorem trimEnd_append (h : IsBlank u) (t : Text) : trimEnd (t ++ u) = trimEnd t := by
  have hu : ∀ b ∈ u.reverse, Byte.isBlank b := fun b hb => h b (List.mem_reverse.1 hb)
  simp only [trimEnd, dropEndWhile, List.reverse_append]
  rw [List.dropWhile_append_of_pos hu]

/-- Trimming does not depend on blanks in front. -/
theorem trim_append_left (h : IsBlank t) (u : Text) : trim (t ++ u) = trim u := by
  rw [trim, trimStart_append h, trim]

/-- Trimming does not depend on blanks at the end. -/
theorem trim_append_right (h : IsBlank u) (t : Text) : trim (t ++ u) = trim t := by
  rw [trim, trimStart, List.dropWhile_append]
  split
  case isTrue hblank =>
    have hu : u.dropWhile Byte.isBlank = [] := List.dropWhile_eq_nil_iff.2 h
    have ht : trimStart t = [] := List.isEmpty_iff.1 hblank
    rw [hu, trim, ht]
  case isFalse => exact trimEnd_append h _

/-- Nothing is trimmed in front of a byte that is not blank. -/
theorem trimStart_eq_self (h : t.head?.all (!Byte.isBlank ·)) : trimStart t = t := by
  cases t with
  | nil => rfl
  | cons b t => exact trimStart_cons_of_not_blank (by simpa using h)

/-- Nothing is trimmed behind a byte that is not blank. -/
theorem trimEnd_eq_self (h : t.getLast?.all (!Byte.isBlank ·)) : trimEnd t = t := by
  have hr : trimStart t.reverse = t.reverse := trimStart_eq_self (by rwa [List.head?_reverse])
  rw [trimEnd, dropEndWhile, ← trimStart, hr, List.reverse_reverse]

/-- What is trimmed stays as it is. -/
theorem trim_eq_self (h : t.isTrimmed) : trim t = t := by
  obtain ⟨hhead, hlast⟩ := Bool.and_eq_true_iff.1 h
  rw [trim, trimStart_eq_self hhead, trimEnd_eq_self hlast]

/-- There are no blanks in front of trimmed text. -/
theorem eq_nil_of_isTrimmed_append (h : (t ++ u).isTrimmed) (ht : IsBlank t) : t = [] := by
  cases t with
  | nil => rfl
  | cons b t =>
    have hb : Byte.isBlank b = false := by simpa using (Bool.and_eq_true_iff.1 h).1
    exact absurd (ht b List.mem_cons_self) (by simp [hb])

theorem head?_dropWhile (p : UInt8 → Bool) (t : Text) : (t.dropWhile p).head?.all (!p ·) := by
  have h := List.head?_dropWhile_not p t
  cases hd : (t.dropWhile p).head? with
  | none => rfl
  | some b => simpa [hd] using h

/-- What is trimmed does not start with a blank. -/
theorem head?_trimStart (t : Text) : (trimStart t).head?.all (!Byte.isBlank ·) :=
  head?_dropWhile Byte.isBlank t

/-- What is trimmed does not end with a blank. -/
theorem getLast?_trimEnd (t : Text) : (trimEnd t).getLast?.all (!Byte.isBlank ·) := by
  rw [trimEnd, dropEndWhile, List.getLast?_reverse]
  exact head?_trimStart t.reverse

/-- At the end only the end is lost. -/
theorem trimEnd_isPrefix (t : Text) : trimEnd t <+: t := List.rdropWhile_prefix _ t

/-- Trimming yields trimmed text. -/
theorem isTrimmed_trim (t : Text) : (trim t).isTrimmed := by
  refine Bool.and_eq_true_iff.2 ⟨?_, getLast?_trimEnd _⟩
  -- What stays of a text whose first byte is no blank starts with that byte.
  have hhead := head?_trimStart t
  obtain ⟨u, hu⟩ := trimEnd_isPrefix (trimStart t)
  rw [← trim] at hu
  rw [← hu] at hhead
  cases h : trim t with
  | nil => rfl
  | cons b v => simpa [h] using hhead

/-- In front only blanks are lost. -/
theorem exists_trimStart (t : Text) : ∃ a, IsBlank a ∧ t = a ++ trimStart t :=
  ⟨_, fun _ => List.mem_takeWhile_imp, List.takeWhile_append_dropWhile.symm⟩

/-- At the end only blanks are lost. -/
theorem exists_trimEnd (t : Text) : ∃ b, IsBlank b ∧ t = trimEnd t ++ b :=
  ⟨_, fun _ => List.mem_rtakeWhile_imp, List.rdropWhile_append_rtakeWhile.symm⟩

/-- Trimming yields the one trimmed text between blanks. -/
theorem trim_eq_iff {u : Text} : trim t = u ↔ Trims t u := by
  constructor
  · rintro rfl
    obtain ⟨a, ha, hstart⟩ := exists_trimStart t
    obtain ⟨b, hb, hend⟩ := exists_trimEnd (trimStart t)
    refine ⟨isTrimmed_trim t, a, b, ha, hb, ?_⟩
    rw [List.append_assoc, trim, ← hend, ← hstart]
  · rintro ⟨hu, a, b, ha, hb, rfl⟩
    rw [trim_append_right hb, trim_append_left ha, trim_eq_self hu]

/-- Trimming adds no bytes. -/
theorem mem_of_mem_trim {b : UInt8} (h : b ∈ trim t) : b ∈ t :=
  (List.dropWhile_sublist _).subset ((trimEnd_isPrefix _).subset h)

end

end Text

/-! ## Lines -/

namespace Line

/-- A line is its body, perhaps with a carriage return at the end. -/
theorem content_eq (l : Line) :
    l.content = l.body ∨ l.content = l.body ++ [Byte.carriageReturn] := by
  rw [body]
  split
  case isTrue h =>
    obtain ⟨t, ht⟩ := List.getLast?_eq_some_iff.1 h
    exact .inr (by rw [ht, List.dropLast_concat])
  case isFalse => exact .inl rfl

/-- A line is empty without its carriage return only if it had nothing else on it. -/
theorem body_ne_nil {l : Line} (h : l.content ≠ []) (h' : l.content ≠ [Byte.carriageReturn]) :
    l.body ≠ [] := by
  intro hbody
  rcases l.content_eq with hl | hl <;> rw [hbody] at hl
  · exact h hl
  · exact h' hl

end Line

end QueryStats
