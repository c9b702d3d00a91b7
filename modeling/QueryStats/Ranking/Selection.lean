import QueryStats.Frequency

/-! # The front of an order without sorting all of it -/

namespace QueryStats

namespace Tally

/-- Greater counts come first, equal counts in the order of their keys. -/
def order (a b : Tally) : Ordering := (compare b.2 a.2).then (compare a.1 b.1)

/-- The elements that come before, beside and after a pivot. -/
def before (p : Tally) (ts : List Tally) : List Tally := ts.filter (order · p == .lt)

def beside (p : Tally) (ts : List Tally) : List Tally := ts.filter (order · p == .eq)

def after (p : Tally) (ts : List Tally) : List Tally := ts.filter (order · p == .gt)

@[simp] theorem order_self (p : Tally) : order p p = .eq := by simp [order]

/-- The part before an element leaves the element out. -/
theorem length_before_lt {p : Tally} {ts : List Tally} (h : p ∈ ts) :
    (before p ts).length < ts.length :=
  List.length_filter_lt_length_iff_exists.2 ⟨p, h, by simp⟩

/-- The part after an element leaves the element out. -/
theorem length_after_lt {p : Tally} {ts : List Tally} (h : p ∈ ts) :
    (after p ts).length < ts.length :=
  List.length_filter_lt_length_iff_exists.2 ⟨p, h, by simp⟩

/-- Rearranges a list so that none of its first `k` elements comes after one of the others.  Each
round compares with the element in the middle and goes on with the part that the cut runs
through. -/
def select (k : Nat) (ts : List Tally) : List Tally :=
  match _h : ts[ts.length / 2]? with
  | none => ts
  | some p =>
    if k ≤ (before p ts).length then select k (before p ts) ++ beside p ts ++ after p ts
    else if k ≤ (before p ts).length + (beside p ts).length then
      before p ts ++ beside p ts ++ after p ts
    else
      before p ts ++ beside p ts
        ++ select (k - ((before p ts).length + (beside p ts).length)) (after p ts)
termination_by ts.length
decreasing_by
  · exact length_before_lt (List.mem_of_getElem? _h)
  · exact length_after_lt (List.mem_of_getElem? _h)

end Tally

end QueryStats
