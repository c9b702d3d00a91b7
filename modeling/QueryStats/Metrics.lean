import QueryStats.Category
import QueryStats.Scalar

/-! # The seven metrics -/

namespace QueryStats

inductive Metric where
  | requests
  | lists
  | safeBrowsing
  | safeSearch
  | parental
  | timeSum
  | timeCount
deriving DecidableEq, Repr

/-- One value for each metric. -/
structure Metrics (α : Type) where
  requests : α
  lists : α
  safeBrowsing : α
  safeSearch : α
  parental : α
  /-- seconds -/
  timeSum : α
  timeCount : α
deriving DecidableEq, Repr

namespace Metrics

variable {α β γ : Type}

def get (m : Metrics α) : Metric → α
  | .requests => m.requests
  | .lists => m.lists
  | .safeBrowsing => m.safeBrowsing
  | .safeSearch => m.safeSearch
  | .parental => m.parental
  | .timeSum => m.timeSum
  | .timeCount => m.timeCount

def ofFn (f : Metric → α) : Metrics α :=
  ⟨f .requests, f .lists, f .safeBrowsing, f .safeSearch, f .parental, f .timeSum, f .timeCount⟩

/-- Changes each value by a function of its metric. -/
def mapFn (f : Metric → α → β) (m : Metrics α) : Metrics β := ofFn fun k => f k (m.get k)

def toList (m : Metrics α) : List α :=
  [m.requests, m.lists, m.safeBrowsing, m.safeSearch, m.parental, m.timeSum, m.timeCount]

@[simp] theorem get_ofFn (f : Metric → α) (k : Metric) : (ofFn f).get k = f k := by cases k <;> rfl

@[simp] theorem get_mapFn (f : Metric → α → β) (m : Metrics α) (k : Metric) :
    (m.mapFn f).get k = f k (m.get k) := by cases k <;> rfl

/-- Metrics are told apart by their values. -/
theorem ext_get {m n : Metrics α} (h : ∀ k, m.get k = n.get k) : m = n := by
  cases m; cases n
  simp only [mk.injEq]
  exact ⟨h .requests, h .lists, h .safeBrowsing, h .safeSearch, h .parental, h .timeSum,
    h .timeCount⟩

end Metrics

/-- What the statistics keep of one query; `elapsed` is in seconds. -/
structure Query (α : Type) where
  category : Category
  elapsed : Option α
deriving DecidableEq, Repr

namespace Query

variable {α : Type} [Scalar α]

/-- What a query does to the value of a metric.  A metric that the query says nothing about is left
as it is. -/
def count (q : Query α) : Metric → α → α
  | .requests, x => x + 1
  | .lists, x => if q.category = .lists then x + 1 else x
  | .safeBrowsing, x => if q.category = .safeBrowsing then x + 1 else x
  | .safeSearch, x => if q.category = .safeSearch then x + 1 else x
  | .parental, x => if q.category = .parental then x + 1 else x
  | .timeSum, x => match q.elapsed with
    | some seconds => x + seconds
    | none => x
  | .timeCount, x => if q.elapsed.isSome then x + 1 else x

end Query

end QueryStats
