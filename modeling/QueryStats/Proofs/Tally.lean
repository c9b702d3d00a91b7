import Mathlib.Algebra.Field.Rat
import Mathlib.Data.Rat.Defs
import QueryStats.Proofs.Double
import QueryStats.Proofs.History

/-!
# Totals as plain counts

Six of the seven metrics count queries, and one adds up durations.  Where counting is exact, a total
is the number of queries it counts, and the gain of a total is the number of queries since.
-/

namespace QueryStats

/-! ## Carriers that count exactly -/

/-- Below `bound`, counting by ones from zero is exact; `ofCount` is how numbers are written. -/
structure Scalar.Counts (α : Type) [Scalar α] (bound : Nat) (ofCount : Nat → α) : Prop where
  zero : ofCount 0 = 0
  succ {n : Nat} : n + 1 < bound → ofCount n + 1 = ofCount (n + 1)
  sub {m n : Nat} : m + n < bound → ofCount (m + n) - ofCount m = ofCount n
  isZero {n : Nat} : n < bound → Scalar.isZero (ofCount n) = (n == 0)

namespace Scalar

/-- Doubles count exactly below `2 ^ 53`. -/
theorem counts_float : Counts Float (2 ^ 53) Float.ofNat where
  zero := rfl
  succ h := Double.ofNat_add h
  sub h := Double.ofNat_add_sub h
  isZero h := Double.ofNat_beq_zero h

/-- Rationals count exactly. -/
theorem counts_rat (bound : Nat) : Counts Rat bound Nat.cast where
  zero := rfl
  succ {n} _ := (Nat.cast_succ n).symm
  sub {m n} _ := by
    change ((m + n : Nat) : Rat) - (m : Rat) = n
    rw [Nat.cast_add, add_sub_cancel_left]
  isZero {n} _ := by
    change ((n : Rat).num == 0) = (n == 0)
    rw [Rat.num_natCast]
    cases n <;> rfl

end Scalar

/-! ## What a metric counts -/

namespace Query

variable {α : Type}

/-- Whether a query adds one to a metric. -/
def counts (q : Query α) : Metric → Bool
  | .requests => true
  | .lists => q.category = .lists
  | .safeBrowsing => q.category = .safeBrowsing
  | .safeSearch => q.category = .safeSearch
  | .parental => q.category = .parental
  | .timeSum => false
  | .timeCount => q.elapsed.isSome

/-- A metric that is no sum grows by one with what it counts. -/
theorem count_eq [Scalar α] (q : Query α) {k : Metric} (hk : k ≠ .timeSum) (x : α) :
    q.count k x = if q.counts k then x + 1 else x := by
  cases k with
  | timeSum => exact absurd rfl hk
  | requests | timeCount => rfl
  | lists | safeBrowsing | safeSearch | parental => simp [count, counts]

/-- How many queries add one to a metric. -/
def counted (k : Metric) (qs : List (Query α)) : Nat := qs.countP fun q => q.counts k

/-- The first query is counted if the metric counts it. -/
@[simp] theorem counted_cons (k : Metric) (q : Query α) (qs : List (Query α)) :
    counted k (q :: qs) = counted k qs + if q.counts k then 1 else 0 := by
  cases h : q.counts k <;> simp [counted, h]

/-- Queries of both lists are counted. -/
@[simp] theorem counted_append (k : Metric) (qs rs : List (Query α)) :
    counted k (qs ++ rs) = counted k qs + counted k rs := List.countP_append

/-- No more is counted than there is. -/
theorem counted_le_length (k : Metric) (qs : List (Query α)) : counted k qs ≤ qs.length :=
  List.countP_le_length

/-- Every query is a request. -/
@[simp] theorem counted_requests (qs : List (Query α)) : counted .requests qs = qs.length := by
  simp [counted, counts]

/-- The durations of the queries that have one. -/
def durations (qs : List (Query α)) : List α := qs.filterMap (·.elapsed)

/-- Durations are counted where there are any. -/
theorem counted_timeCount (qs : List (Query α)) :
    counted .timeCount qs = (durations qs).length := by
  induction qs with
  | nil => rfl
  | cons q qs ih =>
    rw [counted_cons, ih, durations, durations, List.filterMap_cons]
    cases h : q.elapsed <;> simp [counts, h]

end Query

namespace Store

variable {α : Type} [Scalar α] {bound : Nat} {ofCount : Nat → α}

/-- The tally goes on from what was there. -/
theorem tally_append (k : Metric) (qs rs : List (Query α)) :
    tally k (qs ++ rs) = rs.foldl (fun x q => q.count k x) (tally k qs) := List.foldl_append

/-- Below the bound a count tells how many queries it counted. -/
theorem foldl_count (hc : Scalar.Counts α bound ofCount) {k : Metric} (hk : k ≠ .timeSum) {n : Nat}
    {qs : List (Query α)} (h : n + qs.length < bound) :
    qs.foldl (fun x q => q.count k x) (ofCount n) = ofCount (n + Query.counted k qs) := by
  induction qs generalizing n with
  | nil => rfl
  | cons q qs ih =>
    rw [List.length_cons] at h
    rw [List.foldl_cons, Query.count_eq q hk, Query.counted_cons]
    split
    · rw [hc.succ (by omega), ih (by omega), Nat.add_right_comm, Nat.add_assoc]
    · exact ih (by omega)

/-- A total is the number of queries that its metric counts. -/
theorem tally_eq_ofCount (hc : Scalar.Counts α bound ofCount) {k : Metric} (hk : k ≠ .timeSum)
    {qs : List (Query α)} (h : qs.length < bound) : tally k qs = ofCount (Query.counted k qs) := by
  have hlen : 0 + qs.length < bound := by rwa [Nat.zero_add]
  have ht := foldl_count hc hk hlen
  rwa [hc.zero, Nat.zero_add] at ht

/-- What a total gains is the number of queries that its metric counts since. -/
theorem tally_append_sub (hc : Scalar.Counts α bound ofCount) {k : Metric} (hk : k ≠ .timeSum)
    {qs rs : List (Query α)} (h : (qs ++ rs).length < bound) :
    tally k (qs ++ rs) - tally k qs = ofCount (Query.counted k rs) := by
  have hle := Query.counted_le_length k (qs ++ rs)
  have hqs : qs.length < bound := by
    rw [List.length_append] at h
    omega
  rw [Query.counted_append] at hle
  rw [tally_eq_ofCount hc hk h, tally_eq_ofCount hc hk hqs, Query.counted_append]
  exact hc.sub (by omega)

/-- The sum grows by the durations. -/
theorem foldl_timeSum (x : Rat) (qs : List (Query Rat)) :
    qs.foldl (fun x q => q.count .timeSum x) x = x + (Query.durations qs).sum := by
  induction qs generalizing x with
  | nil => exact (Rat.add_zero x).symm
  | cons q qs ih =>
    rw [List.foldl_cons, ih]
    cases h : q.elapsed with
    | none => simp [Query.count, Query.durations, h]
    | some seconds =>
      have hsum : (Query.durations (q :: qs)).sum = seconds + (Query.durations qs).sum := by
        simp [Query.durations, h]
      have hq : q.count .timeSum x = x + seconds := by simp only [Query.count, h]
      rw [hsum, hq, Rat.add_assoc]

/-- Without rounding, what the durations gain is their sum since. -/
theorem tally_timeSum_append_sub (qs rs : List (Query Rat)) :
    tally .timeSum (qs ++ rs) - tally .timeSum qs = (Query.durations rs).sum := by
  rw [tally_append, foldl_timeSum, add_sub_cancel_left]

end Store

end QueryStats
