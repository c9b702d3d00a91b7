import Mathlib.Algebra.Group.Int.Defs
import QueryStats.Proofs.Differences

/-!
# Series told by their differences

Differences along a part of a series are a part of the differences along the whole of it.  Where
values are not rounded, nothing but one value is lost: added up from the last value on, the
differences give the series again.
-/

namespace QueryStats

/-! ## Parts -/

section

variable {α : Type} {first last : Nat}

/-- A slice has the elements at its positions. -/
theorem map_some_slice (first last : Nat) (v : List α) (h : last ≤ v.length) :
    (slice first last v).map some = (List.range' first (last - first)).map fun i => v[i]? := by
  refine List.ext_getElem? fun k => ?_
  rw [List.getElem?_map, List.getElem?_map, getElem?_slice]
  split
  case isTrue hk =>
    rw [List.getElem?_range' (by omega), Nat.one_mul, Option.map_some,
      List.getElem?_eq_getElem (show first + k < v.length by omega), Option.map_some]
  case isFalse hk =>
    rw [List.getElem?_eq_none (by rw [List.length_range']; omega), Option.map_none, Option.map_none]

variable [Sub α] {v : List α}

/-- A slice has one difference fewer than elements. -/
theorem length_rates_slice (h : last ≤ v.length) :
    (rates (slice first last v)).length = last - first - 1 := by
  rw [length_rates, length_slice, Nat.min_eq_left h]

/-- The differences of a slice are a slice of the differences. -/
theorem map_some_rates_slice (h : last ≤ v.length) :
    (rates (slice first last v)).map some =
      (List.range' first (last - first - 1)).map fun i => (rates v)[i]? := by
  have hlast : last - 1 ≤ (rates v).length := by
    rw [length_rates]
    omega
  rw [rates_slice, map_some_slice _ _ _ hlast, Nat.sub_right_comm]

end

/-! ## Restored series -/

section

variable {α : Type}

/-- The series with a given last value and given differences along it. -/
def restore [Add α] (last : α) (ds : List α) : List α := ds.scanr (· + ·) last

/-- The first element is the last one with all differences added. -/
theorem head?_restore [Add α] (last : α) (ds : List α) :
    (restore last ds).head? = some (ds.foldr (· + ·) last) := List.head?_scanr

/-- One more difference puts one more element in front. -/
theorem restore_cons [Add α] (last d : α) (ds : List α) :
    restore last (d :: ds) = (d + ds.foldr (· + ·) last) :: restore last ds := List.scanr_cons

variable [AddGroup α]

/-- A series is restored from its differences and its last element. -/
theorem restore_rates {v : List α} {last : α} (h : v.getLast? = some last) :
    restore last (rates v) = v := by
  induction v with
  | nil => cases h
  | cons x v ih =>
    cases v with
    | nil =>
      obtain rfl : x = last := Option.some.inj h
      rfl
    | cons y v =>
      have hrest : restore last (rates (y :: v)) = y :: v := ih (by simpa using h)
      -- What the differences behind `x` add up to is the first value behind it.
      have hy : (rates (y :: v)).foldr (· + ·) last = y := by
        have hhead := head?_restore last (rates (y :: v))
        rw [hrest] at hhead
        exact (Option.some.inj hhead).symm
      rw [rates_cons_cons, restore_cons, hy, hrest, sub_add_cancel]

/-- Two series with the same differences and the same last element are the same. -/
theorem eq_of_rates_eq {v w : List α} (hlast : v.getLast? = w.getLast?) (h : rates v = rates w) :
    v = w := by
  cases hv : v.getLast? with
  | none =>
    rw [hv] at hlast
    rw [List.getLast?_eq_none_iff.1 hv, List.getLast?_eq_none_iff.1 hlast.symm]
  | some last =>
    rw [← restore_rates hv, h]
    exact restore_rates (hlast ▸ hv)

end

/-! ## What differences tell -/

/-- Between any two positions of a series, the first of which may lie behind the last, differences
can be read without a value that is not there.  They are the differences along the whole series at
the positions from the first on, one fewer than there are values in between.  Where values form a
group, a series is given by its last value and its differences. -/
theorem differences_tell_series {α β : Type} [Sub α] [AddGroup β] (v : List α)
    (first last : Fin (v.length + 1)) :
    (∀ ds, Differences v first last ds ↔ ds = rates (slice first last v)) ∧
    ((rates (slice first last v)).length : Int) = max ((last : Int) - first - 1) 0 ∧
    (rates (slice first last v)).map some =
      (List.range' first (last - first - 1)).map (fun i => (rates v)[i]?) ∧
    (∀ (b : List β) (z : β), b.getLast? = some z → restore z (rates b) = b) ∧
    ∀ b c : List β, b.getLast? = c.getLast? → rates b = rates c → b = c := by
  have hlast : (last : Nat) ≤ v.length := Nat.le_of_lt_succ last.isLt
  refine ⟨fun ds => differences_iff hlast, ?_, map_some_rates_slice hlast,
    fun b z => restore_rates, fun b c => eq_of_rates_eq⟩
  rw [length_rates_slice hlast]
  omega

/-- Three differences of four integers, from the whole, from a part and from an inverted window. -/
theorem differences_tell_series_of_four :
    let v : List Int := [9, 4, 4, 1]
    Differences v 1 4 [0, 3] ∧ Differences v 3 1 [] ∧ restore 1 [5, 0, 3] = v ∧
    ∀ w : List Int, w.getLast? = some 1 → rates w = [5, 0, 3] → v = w := by
  intro v
  obtain ⟨hpart, -, -, hrestore, hunique⟩ := differences_tell_series (β := Int) v 1 4
  obtain ⟨hinverted, -⟩ := differences_tell_series (β := Int) v 3 1
  exact ⟨(hpart _).2 rfl, (hinverted _).2 rfl, hrestore v 1 rfl,
    fun w hlast hrates => hunique v w hlast.symm hrates.symm⟩

end QueryStats
