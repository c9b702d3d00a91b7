import Mathlib.Order.Bounds.Basic
import QueryStats.Proofs.Delivery

/-!
# How long a queue has been

A queue keeps a number beside its items.  After each call the number is the greater one of what it
was before and of the size that the queue has now, so that it can be told from the states that the
calls led through: it is the greatest of their sizes.
-/

namespace QueryStats.Queue

variable {α : Type} {capacity : Nat} {q r p : Queue α} {e : Event α} {es fs : List (Event α)}

/-- Calls lead through a state if the first of them lead to it and the others on from it. -/
def Through (q : Queue α) (es : List (Event α)) (r p : Queue α) : Prop :=
  ∃ fs gs, fs ++ gs = es ∧ Run q fs p ∧ Run p gs r

/-- The number that is kept is not below the size, and not above the capacity. -/
structure Bounded (capacity : Nat) (q : Queue α) : Prop where
  size_le : q.size ≤ q.highWater
  highWater_le : q.highWater ≤ max capacity 1

/-! ## One call -/

/-- Only a push that is accepted makes a queue longer. -/
theorem step_size (h : Step q e r) (he : ∀ a, e ≠ .push a true) :
    r.size ≤ q.size ∧ r.highWater = q.highWater := by
  cases e with
  | push a b =>
    cases b with
    | true => exact absurd rfl (he a)
    | false =>
      obtain ⟨-, rfl⟩ := step_push_false_iff.1 h
      exact ⟨le_refl _, rfl⟩
  | pop i =>
    cases i with
    | some a =>
      obtain ⟨items, hitems, rfl⟩ := step_pop_some_iff.1 h
      refine ⟨?_, rfl⟩
      rw [size, size, hitems]
      exact Nat.le_succ _
    | none =>
      obtain ⟨-, rfl⟩ := step_pop_none_iff.1 h
      exact ⟨le_refl _, rfl⟩
  | close =>
    obtain rfl := step_close_iff.1 h
    exact ⟨le_refl _, rfl⟩
  | wait b =>
    obtain ⟨-, rfl⟩ := step_wait_iff.1 h
    exact ⟨le_refl _, rfl⟩

/-- A push that is accepted finds room, makes the queue longer by one and takes the mark along. -/
theorem step_push_size {a : α} (h : Step q (.push a true) r) :
    q.size < q.capacity ∧ r.size = q.size + 1 ∧ r.highWater = max q.highWater r.size := by
  obtain ⟨-, hroom, rfl⟩ := step_push_true_iff.1 h
  have hsize : (q.items ++ [a]).length = q.size + 1 := List.length_append
  exact ⟨hroom, hsize, congrArg (max q.highWater) hsize.symm⟩

/-- After each call the number is the greater one of what it was and of the size. -/
theorem step_highWater (h : Step q e r) (hq : q.size ≤ q.highWater) :
    r.highWater = max q.highWater r.size := by
  obtain ⟨a, rfl⟩ | he := em (∃ a, e = .push a true)
  · exact (step_push_size h).2.2
  · obtain ⟨hsize, hkept⟩ := step_size h (not_exists.1 he)
    rw [hkept, max_eq_left (hsize.trans hq)]

/-- A step keeps the length and the mark within the capacity. -/
theorem Bounded.step (hq : Bounded capacity q) (hcapacity : q.capacity = max capacity 1)
    (h : Step q e r) : Bounded capacity r := by
  have hkept := step_highWater h hq.size_le
  refine ⟨hkept ▸ le_max_right _ _, hkept ▸ max_le hq.highWater_le ?_⟩
  obtain ⟨a, rfl⟩ | he := em (∃ a, e = .push a true)
  · obtain ⟨hroom, hsize, -⟩ := step_push_size h
    omega
  · exact (step_size h (not_exists.1 he)).1.trans (hq.size_le.trans hq.highWater_le)

/-- No step lowers the mark. -/
theorem highWater_le_of_step (h : Step q e r) : q.highWater ≤ r.highWater := by
  obtain ⟨a, rfl⟩ | he := em (∃ a, e = .push a true)
  · exact (step_push_size h).2.2 ▸ le_max_left _ _
  · exact (step_size h (not_exists.1 he)).2.ge

/-! ## Runs -/

/-- No run lowers the mark. -/
theorem highWater_le_of_run (h : Run q es r) : q.highWater ≤ r.highWater := by
  induction h with
  | nil => exact le_refl _
  | concat _ hstep ih => exact ih.trans (highWater_le_of_step hstep)

/-- From a new queue on, length and mark stay within the capacity. -/
theorem bounded_run (h : Run (create capacity) es q) : Bounded capacity q := by
  induction h with
  | nil => exact ⟨le_refl 0, Nat.zero_le _⟩
  | concat hrun hstep ih => exact ih.step (recalls_run hrun).capacity hstep

/-- What a run passes through, it also passes through when it goes one step further. -/
theorem Through.concat (h : Through q es r p) {s : Queue α} (hstep : Step r e s) :
    Through q (es ++ [e]) s p := by
  obtain ⟨fs, gs, rfl, hfs, hgs⟩ := h
  exact ⟨fs, gs ++ [e], (List.append_assoc ..).symm, hfs, .concat hgs hstep⟩

/-- A run passes through the queue that it ends with. -/
theorem through_last (h : Run q es r) : Through q es r r :=
  ⟨es, [], List.append_nil es, h, .nil⟩

/-- Some state on the way had the size that is kept. -/
theorem exists_through (h : Run (create capacity) es q) :
    ∃ p, Through (create capacity) es q p ∧ p.size = q.highWater := by
  induction h with
  | nil => exact ⟨_, through_last .nil, rfl⟩
  | @concat es e q r hrun hstep ih =>
    have hkept := step_highWater hstep (bounded_run hrun).size_le
    obtain hle | hlt := le_or_gt r.size q.highWater
    · obtain ⟨p, hp, hsize⟩ := ih
      exact ⟨p, hp.concat hstep, by rw [hsize, hkept, max_eq_left hle]⟩
    · exact ⟨r, through_last (.concat hrun hstep), by rw [hkept, max_eq_right hlt.le]⟩

/-- The mark is the greatest length of all queues that a run passes through. -/
theorem isGreatest_highWater (h : Run (create capacity) es q) :
    IsGreatest {n | ∃ p, Through (create capacity) es q p ∧ p.size = n} q.highWater := by
  refine ⟨exists_through h, ?_⟩
  rintro n ⟨p, ⟨fs, gs, -, hfs, hgs⟩, rfl⟩
  exact (bounded_run hfs).size_le.trans (highWater_le_of_run hgs)

/-! ## The greatest backlog -/

/-- What a queue keeps is the greatest size that it had so far, which is nothing at first.  It is
never above the capacity, and is the capacity if and only if the queue was full at some point.  It
goes down at no call, and up at none but a push that is accepted. -/
theorem highWater_tells_greatest_size (h : Run (create capacity) es q) :
    (create capacity : Queue α).highWater = 0 ∧
    q.size ≤ q.highWater ∧ q.highWater ≤ max capacity 1 ∧
    IsGreatest {n | ∃ p, Through (create capacity) es q p ∧ p.size = n} q.highWater ∧
    (∀ fs r, Run q fs r → q.highWater ≤ r.highWater) ∧
    (∀ e r, Step q e r → (∀ a, e ≠ .push a true) → r.highWater = q.highWater) ∧
    (q.highWater = max capacity 1 ↔
      ∃ p, Through (create capacity) es q p ∧ p.size = max capacity 1) := by
  obtain ⟨hsize, hbound⟩ := bounded_run h
  have hgreatest := isGreatest_highWater h
  refine ⟨rfl, hsize, hbound, hgreatest, fun fs r => highWater_le_of_run,
    fun e r hstep he => (step_size hstep he).2, fun hfull => ?_, fun hfull => ?_⟩
  · exact hfull ▸ hgreatest.1
  · exact le_antisymm hbound (hgreatest.2 hfull)

/-- A queue that was full, then empty, and is filled again in part. -/
theorem highWater_tells_greatest_size_of_refilled :
    let es : List (Event Nat) := [.push 7 true, .push 8 true, .pop (some 7), .pop (some 8),
      .push 9 true, .wait false, .close, .push 6 false]
    let q : Queue Nat := ⟨2, [9], 2, true⟩
    Run (create 2) es q ∧ (∃ p, Through (create 2) es q p ∧ p.size = 2) ∧
    ∀ r, Step q (.pop (some 9)) r → r.highWater = 2 := by
  intro es q
  have h : Run (create 2) es q := by
    change Run (create 2) ([] ++ [.push 7 true] ++ [.push 8 true] ++ [.pop (some 7)] ++
      [.pop (some 8)] ++ [.push 9 true] ++ [.wait false] ++ [.close] ++ [.push 6 false]) q
    exact .concat (.concat (.concat (.concat (.concat (.concat (.concat (.concat .nil
      (.push rfl)) (.push rfl)) (.pop rfl)) (.pop rfl)) (.push rfl)) .wait) .close) (.push rfl)
  obtain ⟨-, -, -, -, -, hkept, hfull⟩ := highWater_tells_greatest_size h
  exact ⟨h, hfull.1 rfl, fun r hr => hkept _ r hr fun _ => nofun⟩

end QueryStats.Queue
