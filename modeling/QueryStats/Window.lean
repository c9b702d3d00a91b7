/-! # Windows on a history -/

namespace QueryStats

/-- `value` brought into the range from `low` to `high`. -/
def clamp (low high value : Int) : Int :=
  if value < low then low else if high < value then high else value

/-- Clamping is the middle of three numbers. -/
theorem clamp_eq_max_min {low high : Int} (h : low ≤ high) (value : Int) :
    clamp low high value = max low (min high value) := by
  simp only [clamp]
  split <;> try split
  all_goals omega

/-- The buckets from `first` up to, but not at, `last`; empty unless `first < last`. -/
structure Window where
  first : Int
  last : Int
deriving DecidableEq, Repr

namespace Window

/-- Brings each end on its own into a history of so many buckets. -/
def within (history : Int) (w : Window) : Window :=
  ⟨clamp 0 (max history 0) w.first, clamp 0 (max history 0) w.last⟩

/-- Both ends are brought within the history. -/
theorem within_bounds (history : Int) (w : Window) :
    0 ≤ (w.within history).first ∧ (w.within history).first ≤ max history 0 ∧
    0 ≤ (w.within history).last ∧ (w.within history).last ≤ max history 0 := by
  simp only [within, clamp]
  refine ⟨?_, ?_, ?_, ?_⟩ <;> (split <;> try split) <;> omega

end Window

end QueryStats
