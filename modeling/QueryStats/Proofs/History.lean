import Mathlib.Data.List.DropRight
import QueryStats.Store

/-!
# What a store remembers of its run

A store keeps its totals twice, in the current bucket and beside the history, and moves the history
on at each rotation.  Both are read here as functions of the run alone: a slot holds the totals of
the queries that are at least so many rotations old.  Nothing is assumed of the arithmetic, so all
of this holds of doubles bit for bit.
-/

namespace QueryStats.Store

variable {α : Type}

namespace Event

def isRecord : Event α → Bool
  | .record _ => true
  | _ => false

def isRotate : Event α → Bool
  | .rotate => true
  | _ => false

def isReset : Event α → Bool
  | .reset => true
  | _ => false

end Event

/-! ## The age of a query -/

/-- How many queries a run records. -/
def records (es : List (Event α)) : Nat := es.countP Event.isRecord

/-- How many rotations a run has. -/
def rotations (es : List (Event α)) : Nat := es.countP Event.isRotate

/-- The part of a run after its last reset. -/
def sinceReset (es : List (Event α)) : List (Event α) := es.rtakeWhile fun e => !e.isReset

/-- The queries of a run, each with the number of rotations after it. -/
def withAges : List (Event α) → List (Query α × Nat)
  | [] => []
  | .record q :: es => (q, rotations es) :: withAges es
  | .rotate :: es | .reset :: es => withAges es

/-- The queries recorded since the last reset whose age, counted in rotations, satisfies `p`. -/
def recorded (p : Nat → Bool) (es : List (Event α)) : List (Query α) :=
  ((withAges (sinceReset es)).filter fun r => p r.2).map (·.1)

/-- The queries recorded since the last reset that are at least `j` rotations old. -/
def older (j : Nat) (es : List (Event α)) : List (Query α) := recorded (j ≤ ·) es

section

variable (es : List (Event α)) (q : Query α)

@[simp] theorem sinceReset_record : sinceReset (es ++ [.record q]) = sinceReset es ++ [.record q] :=
  List.rtakeWhile_concat_pos _ _ _ rfl

@[simp] theorem sinceReset_rotate : sinceReset (es ++ [.rotate]) = sinceReset es ++ [.rotate] :=
  List.rtakeWhile_concat_pos _ _ _ rfl

/-- After a reset nothing has happened. -/
@[simp] theorem sinceReset_reset : sinceReset (es ++ [.reset]) = [] :=
  List.rtakeWhile_concat_neg _ _ _ (by simp [Event.isReset])

@[simp] theorem rotations_nil : rotations ([] : List (Event α)) = 0 := rfl

@[simp] theorem rotations_record : rotations (es ++ [.record q]) = rotations es := by
  simp [rotations, Event.isRotate]

/-- A rotation is one more. -/
@[simp] theorem rotations_rotate : rotations (es ++ [.rotate]) = rotations es + 1 := by
  simp [rotations, Event.isRotate]

/-- A query that is recorded is as young as can be. -/
theorem withAges_record : withAges (es ++ [.record q]) = withAges es ++ [(q, 0)] := by
  induction es with
  | nil => rfl
  | cons e es ih => cases e <;> simp [withAges, ih]

/-- A rotation makes every query older by one. -/
theorem withAges_rotate :
    withAges (es ++ [.rotate]) = (withAges es).map fun r => (r.1, r.2 + 1) := by
  induction es with
  | nil => rfl
  | cons e es ih => cases e <;> simp [withAges, ih]

variable (p : Nat → Bool)

/-- It is among the recorded ones if that age is asked for. -/
theorem recorded_record :
    recorded p (es ++ [.record q]) = recorded p es ++ if p 0 then [q] else [] := by
  cases h : p 0 <;> simp [recorded, withAges_record, List.filter_append, h]

/-- A rotation makes all recorded queries older by one. -/
theorem recorded_rotate : recorded p (es ++ [.rotate]) = recorded (fun j => p (j + 1)) es := by
  simp [recorded, withAges_rotate, List.filter_map, Function.comp_def]

@[simp] theorem recorded_reset : recorded p (es ++ [.reset]) = [] := by
  simp [recorded, withAges]

end

section

variable (j : Nat) (es : List (Event α)) (q : Query α)

@[simp] theorem older_nil : older j ([] : List (Event α)) = [] := rfl

/-- A query that is recorded is not older than any rotation. -/
theorem older_record : older j (es ++ [.record q]) = older j es ++ if j = 0 then [q] else [] := by
  simp [older, recorded_record]

/-- What is older than a rotation was older than one less before the last one. -/
theorem older_rotate : older j (es ++ [.rotate]) = older (j - 1) es := by
  rw [older, older, recorded_rotate]
  congr 1
  funext i
  simp only [decide_eq_decide]
  omega

@[simp] theorem older_reset : older j (es ++ [.reset]) = [] := recorded_reset ..

/-- What was recorded before a rotation is older than the rotations since. -/
theorem older_rotations_succ {before after : List (Event α)} (h : .reset ∉ after) :
    older (rotations after + 1) (before ++ .rotate :: after) = older 0 before := by
  induction after using List.reverseRecOn with
  | nil => exact older_rotate 1 before
  | append_singleton after e ih =>
    rw [List.mem_append, not_or] at h
    have ih := ih h.1
    rw [← List.cons_append, ← List.append_assoc]
    cases e with
    | record q => rw [rotations_record, older_record, ih]; simp
    | rotate => rw [rotations_rotate, older_rotate]; exact ih
    | reset => simp at h

/-- No query since the last reset is older than the rotations since then. -/
theorem older_eq_nil {j : Nat} {es : List (Event α)} (h : rotations (sinceReset es) < j) :
    older j es = [] := by
  induction es using List.reverseRecOn generalizing j with
  | nil => rfl
  | append_singleton es e ih =>
    cases e with
    | record q =>
      rw [sinceReset_record, rotations_record] at h
      rw [older_record, ih h, if_neg (by omega)]
      rfl
    | rotate =>
      rw [sinceReset_rotate, rotations_rotate] at h
      rw [older_rotate]
      exact ih (by omega)
    | reset => exact older_reset j es

/-- Every rotation since the last reset splits the run in two. -/
theorem exists_rotation {es : List (Event α)} {i : Nat} (h : i < rotations (sinceReset es)) :
    ∃ before after, es = before ++ .rotate :: after ∧ .reset ∉ after ∧ rotations after = i := by
  induction es using List.reverseRecOn generalizing i with
  | nil => simp [sinceReset] at h
  | append_singleton es e ih =>
    cases e with
    | record q =>
      rw [sinceReset_record, rotations_record] at h
      obtain ⟨before, after, rfl, hr, hi⟩ := ih h
      exact ⟨before, after ++ [.record q], by simp, by simp [hr], by simp [hi]⟩
    | rotate =>
      rw [sinceReset_rotate, rotations_rotate] at h
      cases i with
      | zero => exact ⟨es, [], rfl, by simp, rfl⟩
      | succ i =>
        obtain ⟨before, after, rfl, hr, hi⟩ := ih (Nat.lt_of_succ_lt_succ h)
        exact ⟨before, after ++ [.rotate], by simp, by simp [hr], by simp [hi]⟩
    | reset => simp at h

end

/-! ## Totals by age -/

/-- Each slot takes over from the newer one beside it, and the newest stays as it is. -/
theorem getElem?_carry (xs : List α) (i : Nat) :
    (carry xs)[i]? = if i < xs.length then xs[i - 1]? else none := by
  cases xs with
  | nil => simp [carry]
  | cons x xs =>
    cases i with
    | zero => simp [carry]
    | succ i => simp [carry, List.getElem?_dropLast]

/-- Carrying on moves every slot but the first by one. -/
theorem carry_map_range (f : Nat → α) (n : Nat) :
    carry ((List.range n).map f) = (List.range n).map fun i => f (i - 1) := by
  apply List.ext_getElem?
  intro i
  rw [getElem?_carry, List.length_map, List.length_range]
  by_cases h : i < n
  · have hp : i - 1 < n := by omega
    simp [h, hp]
  · simp [h]

/-- Changing the newest slot changes a series at its first position only. -/
theorem modifyHead_map_range (g : α → α) (f : Nat → α) (n : Nat) :
    ((List.range n).map f).modifyHead g =
      (List.range n).map fun i => if i = 0 then g (f i) else f i := by
  cases n with
  | zero => rfl
  | succ n => simp [List.range_succ_eq_map]

variable [Scalar α]

/-- The value of a metric after some queries, counted from zero. -/
def tally (k : Metric) (qs : List (Query α)) : α := qs.foldl (fun x q => q.count k x) 0

@[simp] theorem tally_nil (k : Metric) : tally k ([] : List (Query α)) = 0 := rfl

/-- One more query is counted behind the others. -/
@[simp] theorem tally_concat (k : Metric) (qs : List (Query α)) (q : Query α) :
    tally k (qs ++ [q]) = q.count k (tally k qs) := by simp [tally]

/-- A store recalls a run if its slot `j` holds the totals of the queries that are at least `j`
rotations old, and its totals are those of all queries since the last reset. -/
structure Recalls (s : Store α) (es : List (Event α)) : Prop where
  series (k : Metric) : s.series.get k = (List.range s.history).map fun j => tally k (older j es)
  totals (k : Metric) : s.totals.get k = tally k (older 0 es)

/-- A store of zeros recalls a run in which nothing happened. -/
theorem recalls_zero (history : Nat) : Recalls (zero history : Store α) [] where
  series k := by simp [zero]
  totals k := by simp [zero]

/-- Nothing that happens changes how many buckets are kept. -/
@[simp] theorem history_apply (s : Store α) (e : Event α) : (s.apply e).history = s.history := by
  cases e <;> rfl

/-- Nor does a run. -/
@[simp] theorem history_run (s : Store α) (es : List (Event α)) :
    (s.run es).history = s.history := by
  induction es generalizing s with
  | nil => rfl
  | cons e es ih => rw [run_cons, ih, history_apply]

namespace Recalls

variable {s : Store α} {es : List (Event α)}

/-- The store recalls a query that is recorded. -/
theorem record (h : Recalls s es) (q : Query α) : Recalls (s.record q) (es ++ [.record q]) where
  series k := by
    simp only [Store.record, Metrics.get_mapFn, h.series, modifyHead_map_range]
    apply List.map_congr_left
    intro j _
    by_cases hj : j = 0 <;> simp [older_record, hj]
  totals k := by simp [Store.record, h.totals, older_record]

/-- The store recalls a rotation. -/
theorem rotate (h : Recalls s es) : Recalls s.rotate (es ++ [.rotate]) where
  series k := by simp [Store.rotate, h.series, carry_map_range, older_rotate]
  totals k := by simp [h.totals, older_rotate]

/-- After a reset there is nothing to recall. -/
theorem reset (s : Store α) (es : List (Event α)) : Recalls s.reset (es ++ [.reset]) where
  series k := by simp [Store.reset, zero]
  totals k := by simp [Store.reset, zero]

/-- Whatever happens to a store, it goes on recalling. -/
theorem apply (h : Recalls s es) (e : Event α) : Recalls (s.apply e) (es ++ [e]) := by
  cases e with
  | record q => exact h.record q
  | rotate => exact h.rotate
  | reset => exact .reset s es

end Recalls

/-- A store recalls the whole of its run. -/
theorem recalls_run (requested : Nat) (es : List (Event α)) :
    Recalls ((create requested).run es) es := by
  induction es using List.reverseRecOn with
  | nil => exact recalls_zero _
  | append_singleton es e ih => rw [run_append]; exact ih.apply e

@[simp] theorem history_create (requested : Nat) :
    (create requested : Store α).history = historyFor requested := rfl

/-- Every slot holds the totals of the queries that are at least so many rotations old. -/
theorem getElem?_series_run (requested : Nat) (es : List (Event α)) (k : Metric) {j : Nat}
    (h : j < historyFor requested) :
    (((create requested).run es).series.get k)[j]? = some (tally k (older j es)) := by
  rw [(recalls_run requested es).series, history_run, history_create]
  simp [h]

/-! ## The history law -/

/-- The first slot of every series is the running total.  Slot `i` is the total as it stood just
before the `i`-th rotation back from now, and zero if there were fewer rotations since the start or
the last reset.  A rotation leaves the totals alone, and a query the older slots. -/
theorem series_eq_totals_before_rotation (requested : Nat) (es : List (Event α)) :
    let s := (create requested : Store α).run es
    2 ≤ s.history ∧ s.history ≤ 86400 ∧ s.view.history = s.history ∧
    (∀ k, (s.view.series.get k).length = s.history) ∧
    (∀ k, ∀ i < s.history,
      (i = 0 → (s.view.series.get k)[i]? = some (s.totals.get k)) ∧
      (0 < i → i ≤ rotations (sinceReset es) →
        ∃ before after, es = before ++ .rotate :: after ∧ .reset ∉ after ∧
          rotations after + 1 = i ∧
          (s.view.series.get k)[i]? =
            some (((create requested : Store α).run before).totals.get k)) ∧
      (rotations (sinceReset es) < i → (s.view.series.get k)[i]? = some 0)) ∧
    s.rotate.totals = s.totals ∧
    ∀ q k i, i ≠ 0 → ((s.record q).view.series.get k)[i]? = (s.view.series.get k)[i]? := by
  intro s
  have hs : s.history = historyFor requested := history_run _ es
  have hr : Recalls s es := recalls_run requested es
  obtain ⟨hmin, hmax⟩ := historyFor_mem requested
  refine ⟨hs ▸ hmin, hs ▸ hmax, rfl, fun k => by simp [view, hr.series], ?_, rfl, ?_⟩
  · intro k i hi
    have slot : (s.view.series.get k)[i]? = some (tally k (older i es)) :=
      getElem?_series_run requested es k (hs ▸ hi)
    refine ⟨?_, ?_, ?_⟩
    · rintro rfl
      rw [slot, hr.totals]
    · intro h0 hle
      have hlt : i - 1 < rotations (sinceReset es) := by omega
      obtain ⟨before, after, rfl, hreset, hrot⟩ := exists_rotation hlt
      have hi' : rotations after + 1 = i := by omega
      refine ⟨before, after, rfl, hreset, hi', ?_⟩
      rw [slot, (recalls_run requested before).totals, ← hi', older_rotations_succ hreset]
    · intro hlt
      rw [slot, older_eq_nil hlt, tally_nil]
  · intro q k i hi
    simp only [view, Store.record, Metrics.get_mapFn, List.getElem?_modifyHead, if_neg hi]

/-- One record before a reset and three behind it, with a rotation between any two neighbours. -/
theorem series_eq_totals_after_reset :
    let q : Query Float := ⟨.lists, some 2⟩
    let es : List (Event Float) :=
      [.record q, .reset, .rotate, .record q, .rotate, .record q, .rotate, .record q]
    let s := (create 3 : Store Float).run es
    2 < s.history ∧ 2 ≤ rotations (sinceReset es) ∧
    ∃ before after, es = before ++ .rotate :: after ∧ .reset ∉ after ∧ rotations after + 1 = 2 ∧
      (s.view.series.get .lists)[2]? = some (((create 3).run before).totals.get .lists) := by
  intro q es s
  have hs : 2 < s.history := by decide
  have hr : 2 ≤ rotations (sinceReset es) := by decide
  obtain ⟨-, -, -, -, h, -⟩ := series_eq_totals_before_rotation 3 es
  exact ⟨hs, hr, (h .lists 2 hs).2.1 (by decide) hr⟩

end QueryStats.Store
