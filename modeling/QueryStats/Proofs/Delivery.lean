import Mathlib.Data.List.Basic
import QueryStats.Queue

/-!
# What a queue hands out

A queue is used by callers who know nothing of each other, one call at a time.  A call that has to
wait is no event before it completes.  Whatever the order in which calls complete, the items that
were handed out and those still waiting are together the items that were accepted, in their order.
-/

namespace QueryStats.Queue

variable {α : Type}

/-- A call that has completed, with its answer. -/
inductive Event (α : Type) where
  | push (a : α) (accepted : Bool)
  | pop (item : Option α)
  | close
  /-- a wait for the queue to be drained, given up at once -/
  | wait (drained : Bool)
deriving DecidableEq, Repr

namespace Event

/-- The item that a call had accepted. -/
def accepted? : Event α → Option α
  | .push a true => some a
  | _ => none

/-- The item that a call was handed. -/
def delivered? : Event α → Option α
  | .pop item => item
  | _ => none

end Event

/-- One call completes. -/
inductive Step (q : Queue α) : Event α → Queue α → Prop where
  | push {a : α} {accepted : Bool} {r : Queue α} :
    q.push a = (.done accepted, r) → Step q (.push a accepted) r
  | pop {item : Option α} {r : Queue α} : q.pop = (.done item, r) → Step q (.pop item) r
  | close : Step q .close q.close
  | wait : Step q (.wait q.drained) q

/-- Calls complete one after the other. -/
inductive Run (q : Queue α) : List (Event α) → Queue α → Prop where
  | nil : Run q [] q
  | concat {es : List (Event α)} {e : Event α} {r s : Queue α} :
    Run q es r → Step r e s → Run q (es ++ [e]) s

/-- The items that were accepted. -/
def accepted (es : List (Event α)) : List α := es.filterMap Event.accepted?

/-- The items that were handed out. -/
def delivered (es : List (Event α)) : List α := es.filterMap Event.delivered?

/-! ## One call -/

section

variable {q r : Queue α} {a : α}

/-- A queue is drained once it is closed and nothing waits in it. -/
theorem drained_iff : q.drained ↔ q.closed ∧ q.items = [] := by simp [drained]

/-- A push completes with the answer that the queue gives. -/
theorem step_push_iff {b : Bool} : Step q (.push a b) r ↔ q.push a = (.done b, r) :=
  ⟨fun h => by cases h; assumption, .push⟩

/-- A push is accepted exactly if the queue is open and has room; the item then waits behind all
others. -/
theorem step_push_true_iff :
    Step q (.push a true) r ↔ q.closed = false ∧ q.size < q.capacity ∧
      r = { q with items := q.items ++ [a], highWater := max q.highWater (q.size + 1) } := by
  rw [step_push_iff, Queue.push]
  constructor
  · intro h
    split_ifs at h with hclosed hroom
    · simp at h
    · exact ⟨by simpa using hclosed, hroom, (Prod.mk.inj h).2.symm⟩
    · simp at h
  · rintro ⟨hclosed, hroom, rfl⟩
    rw [if_neg (by simp [hclosed]), if_pos hroom]

/-- A push is refused exactly if the queue is closed, and then changes nothing. -/
theorem step_push_false_iff : Step q (.push a false) r ↔ q.closed ∧ r = q := by
  rw [step_push_iff, Queue.push]
  constructor
  · intro h
    split_ifs at h with hclosed hroom
    · exact ⟨hclosed, (Prod.mk.inj h).2.symm⟩
    · simp at h
    · simp at h
  · rintro ⟨hclosed, rfl⟩
    rw [if_pos hclosed]

/-- A pop completes with the answer that the queue gives. -/
theorem step_pop_iff {i : Option α} : Step q (.pop i) r ↔ q.pop = (.done i, r) :=
  ⟨fun h => by cases h; assumption, .pop⟩

/-- An item is handed out exactly if it waits in front of all others. -/
theorem step_pop_some_iff :
    Step q (.pop (some a)) r ↔ ∃ items, q.items = a :: items ∧ r = { q with items := items } := by
  rw [step_pop_iff, Queue.pop.eq_def]
  constructor
  · intro h
    split at h
    case h_1 b items hitems =>
      obtain ⟨hb, hr⟩ := Prod.mk.inj h
      obtain rfl : b = a := by simpa using hb
      exact ⟨items, hitems, hr.symm⟩
    case h_2 => split at h <;> simp at h
  · rintro ⟨items, hitems, rfl⟩
    rw [hitems]

/-- Nothing is handed out exactly if the queue is drained, and then nothing changes. -/
theorem step_pop_none_iff : Step q (.pop none) r ↔ q.drained ∧ r = q := by
  rw [step_pop_iff, drained_iff, Queue.pop.eq_def]
  constructor
  · intro h
    split at h
    case h_1 => simp at h
    case h_2 hitems =>
      split at h
      case isTrue hclosed => exact ⟨⟨hclosed, hitems⟩, (Prod.mk.inj h).2.symm⟩
      case isFalse => simp at h
  · rintro ⟨⟨hclosed, hitems⟩, rfl⟩
    simp [hitems, hclosed]

/-- Closing always completes. -/
theorem step_close_iff : Step q .close r ↔ r = q.close :=
  ⟨fun h => by cases h; rfl, fun h => h ▸ .close⟩

/-- Waiting tells whether the queue is drained, and changes nothing. -/
theorem step_wait_iff {b : Bool} : Step q (.wait b) r ↔ b = q.drained ∧ r = q :=
  ⟨fun h => by cases h; exact ⟨rfl, rfl⟩, fun ⟨hb, hr⟩ => by rw [hb, hr]; exact .wait⟩

/-- A push can complete if there is room, or if the queue is closed. -/
theorem exists_step_push_iff :
    (∃ b r, Step q (.push a b) r) ↔ q.size < q.capacity ∨ q.closed := by
  simp only [Bool.exists_bool, step_push_true_iff, step_push_false_iff]
  cases q.closed <;> simp

/-- A pop can complete if there is an item, or if the queue is closed. -/
theorem exists_step_pop_iff : (∃ i r, Step q (.pop i) r) ↔ q.items ≠ [] ∨ q.closed := by
  simp only [Option.exists, step_pop_some_iff, step_pop_none_iff, drained_iff]
  cases q.items <;> simp

end

/-! ## Runs -/

section

variable {q r s : Queue α} {es fs : List (Event α)}

/-- One run can follow another. -/
theorem Run.trans (h : Run q es r) (h' : Run r fs s) : Run q (es ++ fs) s := by
  induction h' with
  | nil => rwa [List.append_nil]
  | concat _ hstep ih =>
    rw [← List.append_assoc]
    exact .concat ih hstep

/-- A single call is a run. -/
theorem Run.of_step {e : Event α} (h : Step q e r) : Run q [e] r := .concat .nil h

/-- What can be told of a queue from the calls that completed since it was made. -/
structure Recalls (capacity : Nat) (es : List (Event α)) (q : Queue α) : Prop where
  capacity : q.capacity = max capacity 1
  closed : q.closed ↔ .close ∈ es
  items : delivered es ++ q.items = accepted es

/-- Nothing has been pushed into a new queue. -/
theorem recalls_create (capacity : Nat) : Recalls capacity [] (create capacity : Queue α) :=
  ⟨rfl, by simp [create], rfl⟩

/-- Every call that completes is recalled. -/
theorem Recalls.step {capacity : Nat} {e : Event α} (h : Recalls capacity es q)
    (hstep : Step q e r) : Recalls capacity (es ++ [e]) r := by
  obtain ⟨hcapacity, hclosed, hitems⟩ := h
  suffices r.capacity = q.capacity ∧ (r.closed ↔ q.closed ∨ e = .close) ∧
      e.delivered?.toList ++ r.items = q.items ++ e.accepted?.toList by
    obtain ⟨hcapacity', hclosed', hitems'⟩ := this
    refine ⟨hcapacity'.trans hcapacity, ?_, ?_⟩
    · rw [hclosed', hclosed, List.mem_append, List.mem_singleton, eq_comm (a := e)]
    · calc delivered (es ++ [e]) ++ r.items
        _ = delivered es ++ (e.delivered?.toList ++ r.items) := by
          rw [delivered, List.filterMap_append]
          cases he : e.delivered? <;> simp [he, delivered]
        _ = accepted es ++ e.accepted?.toList := by rw [hitems', ← List.append_assoc, hitems]
        _ = accepted (es ++ [e]) := by
          cases he : e.accepted? <;> simp [accepted, List.filterMap_append, he]
  cases e with
  | push a b =>
    cases b with
    | true =>
      obtain ⟨-, -, rfl⟩ := step_push_true_iff.1 hstep
      simp [Event.delivered?, Event.accepted?]
    | false =>
      obtain ⟨-, rfl⟩ := step_push_false_iff.1 hstep
      simp [Event.delivered?, Event.accepted?]
  | pop i =>
    cases i with
    | some a =>
      obtain ⟨items, hitems, rfl⟩ := step_pop_some_iff.1 hstep
      simp [Event.delivered?, Event.accepted?, hitems]
    | none =>
      obtain ⟨-, rfl⟩ := step_pop_none_iff.1 hstep
      simp [Event.delivered?, Event.accepted?]
  | close =>
    obtain rfl := step_close_iff.1 hstep
    simp [close, Event.delivered?, Event.accepted?]
  | wait b =>
    obtain ⟨-, rfl⟩ := step_wait_iff.1 hstep
    simp [Event.delivered?, Event.accepted?]

/-- A queue recalls all calls since it was made. -/
theorem recalls_run {capacity : Nat} (h : Run (create capacity) es q) :
    Recalls capacity es q := by
  induction h with
  | nil => exact recalls_create capacity
  | concat _ hstep ih => exact ih.step hstep

/-- Once a queue is drained, no call changes it. -/
theorem eq_of_drained {e : Event α} (h : q.drained) (hstep : Step q e r) : r = q := by
  obtain ⟨hclosed, hitems⟩ := drained_iff.1 h
  cases e with
  | push a b =>
    cases b with
    | true => simp [step_push_true_iff, hclosed] at hstep
    | false => exact (step_push_false_iff.1 hstep).2
  | pop i =>
    cases i with
    | some a => simp [step_pop_some_iff, hitems] at hstep
    | none => exact (step_pop_none_iff.1 hstep).2
  | close =>
    rw [step_close_iff.1 hstep, close, ← hclosed]
  | wait b => exact (step_wait_iff.1 hstep).2

/-- A drained queue stays drained, whatever is called. -/
theorem drained_of_run (h : q.drained) (hrun : Run q es r) : r.drained := by
  induction hrun with
  | nil => exact h
  | concat _ hstep ih => rwa [eq_of_drained ih hstep]

/-- A closed queue hands out all that it has, one item after the other. -/
theorem run_pops (h : q.closed) :
    Run q (q.items.map fun a => .pop (some a)) { q with items := [] } := by
  obtain ⟨capacity, items, highWater, closed⟩ := q
  induction items with
  | nil => exact .nil
  | cons a items ih =>
    exact (Run.of_step (step_pop_some_iff.2 ⟨items, rfl, rfl⟩)).trans (ih h)

end

/-! ## Whole runs -/

/-- A queue loses nothing, doubles nothing and changes no order.  Every call in a run is a call
after the run of those before it: a push is refused once the queue was closed and never before, a
pop is refused once the queue is closed and all that it accepted was handed out, and then the queue
is drained for good. -/
theorem delivers_all_in_order {capacity : Nat} {es : List (Event α)} {q : Queue α}
    (h : Run (create capacity) es q) :
    delivered es ++ q.items = accepted es ∧ (q.closed ↔ .close ∈ es) ∧
    (∀ a,
      ((∃ b r, Step q (.push a b) r) ↔ q.size < max capacity 1 ∨ q.closed) ∧
      ∀ b r, Step q (.push a b) r → (b = false ↔ .close ∈ es) ∧ (b = false → r = q)) ∧
    ((∃ i r, Step q (.pop i) r) ↔ q.items ≠ [] ∨ q.closed) ∧
    (∀ i r, Step q (.pop i) r → (i = none ↔ q.closed ∧ q.items = [])) ∧
    (q.closed → ∃ r, Run q (q.items.map fun a => .pop (some a)) r ∧ Step r (.pop none) r) ∧
    ((∃ b, Step q (.wait b) q) ∧
      ∀ b r, Step q (.wait b) r → (b ↔ q.closed ∧ q.items = []) ∧ r = q) ∧
    (Step q (.wait true) q → ∀ fs r, Run q fs r →
      Step r (.wait true) r ∧ ∀ b s, Step r (.wait b) s → b) := by
  obtain ⟨hcapacity, hclosed, hitems⟩ := recalls_run h
  refine ⟨hitems, hclosed, fun a => ⟨?_, fun b r hr => ?_⟩, exists_step_pop_iff, fun i r hr => ?_,
    fun hq => ⟨_, run_pops hq, ?_⟩, ⟨⟨_, .wait⟩, fun b r hr => ?_⟩, fun hq fs r hr => ?_⟩
  · rw [exists_step_push_iff, hcapacity]
  · rw [← hclosed]
    cases b with
    | true => simp [(step_push_true_iff.1 hr).1]
    | false => simp [step_push_false_iff.1 hr]
  · rw [← drained_iff]
    cases i with
    | some a =>
      obtain ⟨items, hi, -⟩ := step_pop_some_iff.1 hr
      simp [drained, hi]
    | none => simp [(step_pop_none_iff.1 hr).1]
  · exact step_pop_none_iff.2 ⟨drained_iff.2 ⟨hq, rfl⟩, rfl⟩
  · obtain ⟨rfl, rfl⟩ := step_wait_iff.1 hr
    exact ⟨drained_iff, rfl⟩
  · have hdrained : r.drained := drained_of_run (step_wait_iff.1 hq).1.symm hr
    exact ⟨step_wait_iff.2 ⟨hdrained.symm, rfl⟩,
      fun b s hs => (step_wait_iff.1 hs).1.trans hdrained⟩

/-- A queue with one place takes an item, is closed, and is drained. -/
theorem delivers_all_in_order_of_one_place :
    let es : List (Event Nat) :=
      [.push 7 true, .close, .push 8 false, .wait false, .pop (some 7), .pop none, .wait true]
    let q : Queue Nat := ⟨1, [], 1, true⟩
    Run (create 0) es q ∧ delivered es ++ q.items = [7] ∧ Step q (.push 9 false) q ∧
    ¬ Step q (.push 9 true) q ∧ ∀ fs r, Run q fs r → Step r (.wait true) r := by
  intro es q
  have h : Run (create 0) es q := by
    change Run (create 0) ([] ++ [.push 7 true] ++ [.close] ++ [.push 8 false] ++ [.wait false] ++
      [.pop (some 7)] ++ [.pop none] ++ [.wait true]) q
    exact .concat (.concat (.concat (.concat (.concat (.concat (.concat .nil (.push rfl)) .close)
      (.push rfl)) .wait) (.pop rfl)) (.pop rfl)) .wait
  obtain ⟨hitems, -, hpush, -, -, -, -, hwait⟩ := delivers_all_in_order h
  exact ⟨h, hitems, .push rfl, fun h' => Bool.noConfusion (((hpush 9).2 true q h').1.2 (by decide)),
    fun fs r hr => (hwait .wait fs r hr).1⟩

end QueryStats.Queue
