import QueryStats.Text
import Std.Data.ExtTreeMap

/-! # Counts by key -/

namespace QueryStats

/-- A key with its count. -/
abbrev Tally := Text × UInt64

/-- A count for each key; counts wrap round at 64 bits. -/
abbrev Frequency := Std.ExtTreeMap Text UInt64

namespace Frequency

/-- Adds `n` to the count of a key, which starts at zero. -/
def add (key : Text) (n : UInt64) (f : Frequency) : Frequency :=
  f.alter key fun count => some (count.getD 0 + n)

/-- Adds every count of a list of tallies. -/
def addAll (f : Frequency) (ts : List Tally) : Frequency := ts.foldl (fun f t => f.add t.1 t.2) f

/-- Adding to a key changes its count only. -/
theorem getElem?_add (key k : Text) (n : UInt64) (f : Frequency) :
    (f.add key n)[k]? = if key = k then some (f[key]?.getD 0 + n) else f[k]? := by
  simp [add, Std.ExtTreeMap.getElem?_alter]

/-- A key that was added to is in the map, even if nothing was added. -/
@[simp] theorem mem_add {key k : Text} {n : UInt64} {f : Frequency} :
    k ∈ f.add key n ↔ key = k ∨ k ∈ f := by
  rw [Std.ExtTreeMap.mem_iff_isSome_getElem?, Std.ExtTreeMap.mem_iff_isSome_getElem?, getElem?_add]
  split <;> simp_all

@[simp] theorem addAll_nil (f : Frequency) : f.addAll [] = f := rfl
@[simp] theorem addAll_cons (f : Frequency) (t : Tally) (ts : List Tally) :
    f.addAll (t :: ts) = (f.add t.1 t.2).addAll ts := rfl

/-- Tallies are added one after the other. -/
theorem addAll_append (f : Frequency) (ts us : List Tally) :
    f.addAll (ts ++ us) = (f.addAll ts).addAll us := List.foldl_append

end Frequency

end QueryStats
