import Mathlib.Data.List.Basic
import QueryStats.Text.Line

/-!
# Texts and their lines

No line has a newline in it, and only the last one can lack the newline at its end.  Behind a
newline a text is cut into lines as if it started there.
-/

namespace QueryStats

namespace Text

/-! ## The first line -/

section

variable {t : Text}

/-- A newline ends the line in front of it. -/
theorem lines_append_cons_newline (h : Byte.newline ∉ t) (u : Text) :
    lines (t ++ Byte.newline :: u) = ⟨t, true⟩ :: lines u := by
  induction t with
  | nil => rfl
  | cons b t ih =>
    obtain ⟨hb, ht⟩ := not_or.1 (mt List.mem_cons.2 h)
    rw [List.cons_append, lines_cons, ih ht, consByte, if_neg (Ne.symm hb)]
    rfl

/-- Text without a newline is one line, which nothing ends. -/
theorem lines_of_newline_notMem (h : Byte.newline ∉ t) (hne : t ≠ []) : lines t = [⟨t, false⟩] := by
  induction t with
  | nil => exact absurd rfl hne
  | cons b t ih =>
    obtain ⟨hb, ht⟩ := not_or.1 (mt List.mem_cons.2 h)
    cases t with
    | nil => simp [consByte, Ne.symm hb]
    | cons c t =>
      rw [lines_cons, ih ht (List.cons_ne_nil c t), consByte, if_neg (Ne.symm hb)]
      rfl

/-- No line has a newline in it. -/
theorem newline_notMem_content (t : Text) : ∀ l ∈ lines t, Byte.newline ∉ l.content := by
  induction t with
  | nil => simp
  | cons b t ih =>
    rw [lines_cons, consByte.eq_def]
    split_ifs with hb
    · exact List.forall_mem_cons.2 ⟨by simp, ih⟩
    · cases h : lines t with
      | nil => simpa using Ne.symm hb
      | cons l ls =>
        rw [h] at ih
        obtain ⟨hl, hls⟩ := List.forall_mem_cons.1 ih
        exact List.forall_mem_cons.2 ⟨by simp [Ne.symm hb, hl], hls⟩

end

/-! ## Lines of two texts -/

theorem consByte_ne_nil (b : UInt8) (ls : List Line) : consByte b ls ≠ [] := by
  cases ls <;> by_cases h : b = Byte.newline <;> simp [consByte, h]

/-- A byte goes to the first line. -/
theorem consByte_append (b : UInt8) {ls : List Line} (h : ls ≠ []) (ms : List Line) :
    consByte b (ls ++ ms) = consByte b ls ++ ms := by
  obtain ⟨l, ls, rfl⟩ := List.exists_cons_of_ne_nil h
  by_cases hb : b = Byte.newline <;> simp [consByte, hb]

/-- Behind a newline the lines start anew. -/
theorem lines_append_newline (t u : Text) :
    lines (t ++ Byte.newline :: u) = lines (t ++ [Byte.newline]) ++ lines u := by
  induction t with
  | nil => rfl
  | cons b t ih =>
    have hne : lines (t ++ [Byte.newline]) ≠ [] := by
      cases t with
      | nil => exact List.cons_ne_nil _ _
      | cons b t => exact consByte_ne_nil b _
    rw [List.cons_append, lines_cons, ih, consByte_append b hne, List.cons_append, lines_cons]

/-- A text that ends in a newline can be cut into lines by itself. -/
theorem lines_append {t : Text} (h : t = [] ∨ t.getLast? = some Byte.newline) (u : Text) :
    lines (t ++ u) = lines t ++ lines u := by
  rcases h with rfl | h
  · rfl
  · obtain ⟨t, rfl⟩ := List.getLast?_eq_some_iff.1 h
    rw [List.append_assoc, List.singleton_append, lines_append_newline]

/-- Lines are joined one after the other. -/
theorem unlines_append (ls ms : List Line) : unlines (ls ++ ms) = unlines ls ++ unlines ms :=
  List.flatMap_append

/-- Texts put on lines of their own are those lines again, as long as none has a newline in it. -/
theorem lines_unlines {ts : List Text} (h : ∀ t ∈ ts, Byte.newline ∉ t) :
    lines (unlines (ts.map fun t => ⟨t, true⟩)) = ts.map fun t => ⟨t, true⟩ := by
  induction ts with
  | nil => rfl
  | cons t ts ih =>
    obtain ⟨ht, hts⟩ := List.forall_mem_cons.1 h
    rw [List.map_cons, unlines_cons, Line.raw_terminated, List.append_assoc, List.singleton_append,
      lines_append_cons_newline ht, ih hts]

/-- Only the last line can lack its newline. -/
theorem pairwise_lines (t : Text) : (lines t).Pairwise fun l _ => l.terminated := by
  induction t with
  | nil => exact .nil
  | cons b t ih =>
    rw [lines_cons]
    by_cases hb : b = Byte.newline
    · rw [consByte.eq_def, if_pos hb]
      exact .cons (fun _ _ => rfl) ih
    · rw [consByte.eq_def, if_neg hb]
      cases h : lines t with
      | nil => exact List.pairwise_singleton _ _
      | cons l ls =>
        rw [h] at ih
        exact .cons (fun _ => List.rel_of_pairwise_cons ih) ih.tail

/-- Every line but the last ends in a newline. -/
theorem terminated_of_lines_eq {t : Text} {front back : List Line} {l : Line}
    (h : lines t = front ++ l :: back) (hb : back ≠ []) : l.terminated := by
  obtain ⟨m, back, rfl⟩ := List.exists_cons_of_ne_nil hb
  have hp := pairwise_lines t
  rw [h] at hp
  exact List.rel_of_pairwise_cons (List.pairwise_append.1 hp).2.1 List.mem_cons_self

end Text

end QueryStats
