/-! # Differences along a series -/

namespace QueryStats

variable {α : Type}

/-- The part of a series from position `first` up to, but not at, position `last`. -/
def slice (first last : Nat) (v : List α) : List α := (v.take last).drop first

/-- Each value less the older one that follows it. -/
def rates [Sub α] (v : List α) : List α := List.zipWith (· - ·) v v.tail

@[simp] theorem rates_nil [Sub α] : rates ([] : List α) = [] := rfl
@[simp] theorem rates_singleton [Sub α] (x : α) : rates [x] = [] := rfl
@[simp] theorem rates_cons_cons [Sub α] (x y : α) (v : List α) :
    rates (x :: y :: v) = (x - y) :: rates (y :: v) := rfl

/-- There is one difference fewer than elements. -/
@[simp] theorem length_rates [Sub α] (v : List α) : (rates v).length = v.length - 1 := by
  simp [rates]

/-- A slice ends with its list. -/
@[simp] theorem length_slice (first last : Nat) (v : List α) :
    (slice first last v).length = min last v.length - first := by simp [slice]

/-- A slice counts from its first position. -/
theorem getElem?_slice (first last : Nat) (v : List α) (i : Nat) :
    (slice first last v)[i]? = if first + i < last then v[first + i]? else none := by
  simp [slice, List.getElem?_take]

end QueryStats
