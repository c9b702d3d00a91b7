import QueryStats.Message
import QueryStats.Metrics

/-! # Totals kept by bucket of time -/

namespace QueryStats

/-- The history of every metric, the current bucket first.  Each slot holds the total since the
start as it stood at the end of its bucket. -/
structure View (α : Type) where
  history : Int
  series : Metrics (List α)
deriving DecidableEq, Repr

/-- The history of the metrics and, kept beside it, their totals at this moment. -/
structure Store (α : Type) where
  history : Nat
  series : Metrics (List α)
  totals : Metrics α
deriving DecidableEq, Repr

namespace Store

/-- How many buckets a store keeps when nothing is asked for. -/
def defaultHistory : Nat := 60

def minHistory : Nat := 2

def maxHistory : Nat := 86400

/-- The number of buckets that a store keeps if `requested` are asked for. -/
def historyFor (requested : Nat) : Nat :=
  min (max (if requested = 0 then defaultHistory else requested) minHistory) maxHistory

/-- The history is between its bounds, whatever was requested. -/
theorem historyFor_mem (requested : Nat) :
    minHistory ≤ historyFor requested ∧ historyFor requested ≤ maxHistory := by
  simp only [historyFor, minHistory, maxHistory]
  omega

/-- What is reported when a store is made. -/
def notices (requested : Nat) : List Message :=
  if historyFor requested = requested then []
  else [.historyAdjusted requested (historyFor requested)]

variable {α : Type}

/-- Starts a bucket with the value of the one before; the oldest slot drops off. -/
def carry : List α → List α
  | [] => []
  | x :: xs => x :: (x :: xs).dropLast

@[simp] theorem carry_cons (x : α) (xs : List α) : carry (x :: xs) = x :: (x :: xs).dropLast := rfl

def rotate (s : Store α) : Store α := { s with series := s.series.mapFn fun _ => carry }

@[simp] theorem totals_rotate (s : Store α) : s.rotate.totals = s.totals := rfl

def view (s : Store α) : View α := ⟨s.history, s.series⟩

variable [Scalar α]

/-- All metrics at zero, in every bucket. -/
def zero (history : Nat) : Store α where
  history := history
  series := .ofFn fun _ => List.replicate history 0
  totals := .ofFn fun _ => 0

def create (requested : Nat) : Store α := zero (historyFor requested)

/-- Counts a query in the current bucket and in the totals. -/
def record (q : Query α) (s : Store α) : Store α :=
  { s with
    series := s.series.mapFn fun k => List.modifyHead (q.count k)
    totals := s.totals.mapFn q.count }

def reset (s : Store α) : Store α := zero s.history

/-! ## Runs -/

/-- What can happen to a store. -/
inductive Event (α : Type) where
  | record (q : Query α)
  | rotate
  | reset
deriving DecidableEq, Repr

def apply (s : Store α) : Event α → Store α
  | .record q => s.record q
  | .rotate => s.rotate
  | .reset => s.reset

def run (s : Store α) (es : List (Event α)) : Store α := es.foldl apply s

@[simp] theorem run_nil (s : Store α) : s.run [] = s := rfl
@[simp] theorem run_cons (s : Store α) (e : Event α) (es : List (Event α)) :
    s.run (e :: es) = (s.apply e).run es := rfl

/-- Later events go on from where the earlier ones ended. -/
theorem run_append (s : Store α) (es fs : List (Event α)) :
    s.run (es ++ fs) = (s.run es).run fs := List.foldl_append

end Store

end QueryStats
