/-! # A queue of bounded length -/

namespace QueryStats

/-- Items in the order in which they were pushed.  A closed queue takes no more of them. -/
structure Queue (α : Type) where
  capacity : Nat
  items : List α
  /-- the greatest number of items so far -/
  highWater : Nat
  closed : Bool
deriving DecidableEq, Repr

/-- A call that has to wait, or its answer. -/
inductive Call (β : Type) where
  | waits
  | done (answer : β)
deriving DecidableEq, Repr

namespace Queue

variable {α : Type}

/-- An empty queue, with room for at least one item. -/
def create (capacity : Nat) : Queue α := ⟨max capacity 1, [], 0, false⟩

def size (q : Queue α) : Nat := q.items.length

/-- Pushes an item.  A full queue makes its caller wait, a closed one answers `false`. -/
def push (a : α) (q : Queue α) : Call Bool × Queue α :=
  if q.closed then (.done false, q)
  else if q.size < q.capacity then
    (.done true, { q with
      items := q.items ++ [a]
      highWater := max q.highWater (q.size + 1) })
  else (.waits, q)

/-- Takes the item that has waited longest.  An empty queue makes its caller wait, unless it is
closed. -/
def pop (q : Queue α) : Call (Option α) × Queue α :=
  match q.items with
  | a :: items => (.done (some a), { q with items := items })
  | [] => if q.closed then (.done none, q) else (.waits, q)

def close (q : Queue α) : Queue α := { q with closed := true }

/-- Nothing is left, and nothing will come. -/
def drained (q : Queue α) : Bool := q.closed && q.items.isEmpty

@[simp] theorem items_create (capacity : Nat) : (create capacity : Queue α).items = [] := rfl
@[simp] theorem items_close (q : Queue α) : q.close.items = q.items := rfl
@[simp] theorem closed_close (q : Queue α) : q.close.closed = true := rfl
@[simp] theorem highWater_close (q : Queue α) : q.close.highWater = q.highWater := rfl

end Queue

end QueryStats
