import QueryStats.Rates

/-!
# Differences read off a part of a series

Differences along a part of a series are read pair by pair, from its first position on until the
next position is the one behind its last.  Where the part lies within the series this comes to an
end, asks for no value that is not there, and gives the same part of the differences along the whole
series.
-/

namespace QueryStats

variable {α : Type}

/-! ## Parts of a series -/

section

variable {a b c : Nat}

/-- A part that ends where it starts, or before, is empty. -/
theorem slice_eq_nil (h : b ≤ a) (v : List α) : slice a b v = [] := by
  rw [← List.length_eq_zero_iff, length_slice]
  omega

/-- Two parts that touch make up one. -/
theorem slice_append_slice (hab : a ≤ b) (hbc : b ≤ c) (v : List α) :
    slice a b v ++ slice b c v = slice a c v := by
  have hfront : slice a b v = ((v.take c).drop a).take (b - a) := by
    rw [slice, ← List.drop_take, List.take_take, Nat.min_eq_left hbc]
  have hback : slice b c v = ((v.take c).drop a).drop (b - a) := by
    rw [slice, List.drop_drop, Nat.add_sub_cancel' hab]
  rw [hfront, hback, List.take_append_drop, slice]

/-- A part of a part. -/
theorem drop_slice (h : b ≤ c) (v : List α) :
    ((slice 0 c v).drop a).take (b - a) = slice a b v := by
  rw [slice, List.drop_zero, ← List.drop_take, List.take_take, Nat.min_eq_left h, slice]

/-- A part of two series put together is put together from the parts. -/
theorem slice_zipWith {β γ : Type} (f : α → β → γ) (a b : Nat) (v : List α) (w : List β) :
    slice a b (List.zipWith f v w) = List.zipWith f (slice a b v) (slice a b w) := by
  rw [slice, List.take_zipWith, List.drop_zipWith]
  rfl

end

variable [Sub α] {v ds : List α} {first last i : Nat}

/-- A difference is that of two neighbours, which are both there. -/
theorem getElem?_rates_eq_some_iff {d : α} :
    (rates v)[i]? = some d ↔ ∃ x y, v[i]? = some x ∧ v[i + 1]? = some y ∧ x - y = d := by
  rw [rates, List.getElem?_zipWith_eq_some, List.getElem?_tail]

/-- Differences along a part are the same part of the differences, which are one fewer. -/
theorem rates_slice (first last : Nat) (v : List α) :
    rates (slice first last v) = slice first (last - 1) (rates v) := by
  refine List.ext_getElem? fun i => Option.ext fun d => ?_
  rw [getElem?_rates_eq_some_iff, getElem?_slice, getElem?_slice, getElem?_slice]
  by_cases h : first + (i + 1) < last
  · have h' : first + i < last ∧ first + i < last - 1 := by omega
    rw [if_pos h, if_pos h'.1, if_pos h'.2, getElem?_rates_eq_some_iff, Nat.add_assoc]
  · have h' : ¬ first + i < last - 1 := by omega
    simp [h, h']

/-- A difference within a part is that of two neighbours of the whole series. -/
theorem getElem?_rates_slice (hlast : last ≤ v.length) (hi : first + i + 1 < last) :
    ∃ x y, v[first + i]? = some x ∧ v[first + i + 1]? = some y ∧
      (rates (slice first last v))[i]? = some (x - y) := by
  have hx : v[first + i]? = some v[first + i] := List.getElem?_eq_getElem (by omega)
  have hy : v[first + i + 1]? = some v[first + i + 1] := List.getElem?_eq_getElem (by omega)
  refine ⟨_, _, hx, hy, ?_⟩
  rw [rates_slice, getElem?_slice, if_pos (by omega)]
  exact getElem?_rates_eq_some_iff.2 ⟨_, _, hx, hy, rfl⟩

/-! ## Reading pair by pair -/

/-- Differences read from position `i` on, until the next position is `last`.  Where a value is
missing there is no such reading. -/
inductive Walk (v : List α) (last : Nat) : Nat → List α → Prop
  | stop {i : Nat} : i + 1 = last → Walk v last i []
  | step {i : Nat} {x y : α} {ds : List α} :
    i + 1 ≠ last → v[i]? = some x → v[i + 1]? = some y → Walk v last (i + 1) ds →
    Walk v last i ((x - y) :: ds)

/-- Differences along the part of a series from `first` up to, but not at, `last`.  No value is read
of a part that has fewer than two. -/
inductive Differences (v : List α) (first last : Nat) : List α → Prop
  | few : last < first + 2 → Differences v first last []
  | walk {ds : List α} : first + 2 ≤ last → Walk v last first ds → Differences v first last ds

namespace Walk

/-- A walk never comes to an end that lies behind it. -/
theorem lt (h : Walk v last i ds) : i < last := by
  induction h with
  | stop hi => omega
  | step _ _ _ _ ih => omega

/-- As long as the walk ends within the series, there is one. -/
theorem exists_of_le (hi : i < last) (hlast : last ≤ v.length) : ∃ ds, Walk v last i ds := by
  -- The way that is left to go gets shorter by one at each step.
  induction hn : last - i generalizing i with
  | zero => omega
  | succ n ih =>
    by_cases hstop : i + 1 = last
    · exact ⟨[], .stop hstop⟩
    · obtain ⟨ds, hds⟩ := ih (i := i + 1) (by omega) (by omega)
      exact ⟨_, .step hstop (List.getElem?_eq_getElem (by omega))
        (List.getElem?_eq_getElem (by omega)) hds⟩

/-- The walk finds the differences of the part, one for each step. -/
theorem eq_slice (h : Walk v last i ds) : ds = slice i (last - 1) (rates v) := by
  induction h with
  | @stop i hi => exact (slice_eq_nil (by omega) _).symm
  | @step i x y ds hi hx hy h ih =>
    have hlt := h.lt
    have hhead : slice i (i + 1) (rates v) = [x - y] := by
      refine List.ext_getElem? fun j => ?_
      rw [getElem?_slice]
      cases j with
      | zero => simpa using getElem?_rates_eq_some_iff.2 ⟨x, y, hx, hy, rfl⟩
      | succ j => simp
    rw [ih, ← slice_append_slice (Nat.le_succ i) (by omega), hhead, List.singleton_append]

end Walk

/-- Within a series, differences can be read along every part, and are those of the part. -/
theorem differences_iff (hlast : last ≤ v.length) :
    Differences v first last ds ↔ ds = rates (slice first last v) := by
  rw [rates_slice]
  constructor
  · rintro (h | ⟨_, h⟩)
    · exact (slice_eq_nil (by omega) _).symm
    · exact h.eq_slice
  · rintro rfl
    by_cases h : last < first + 2
    · rw [slice_eq_nil (by omega)]
      exact .few h
    · obtain ⟨ds, hds⟩ := Walk.exists_of_le (i := first) (by omega) hlast
      rw [← hds.eq_slice]
      exact .walk (by omega) hds

end QueryStats
