import Mathlib.Data.List.Basic
import QueryStats.Ranking

/-!
# The front of a ranking

Tallies are ranked by a linear order in which no two of them tie.  Sorting therefore forgets in what
order the tallies came, and a list whose front is settled can be cut before it is sorted.
-/

namespace QueryStats

namespace Tally

instance : Std.TransCmp order :=
  have : Std.TransCmp fun a b : Tally => compareOn Prod.snd b a := .opposite
  inferInstanceAs
    (Std.TransCmp (compareLex (fun a b => compareOn Prod.snd b a) (compareOn Prod.fst)))

instance : Std.LawfulEqCmp order where
  eq_of_compare {a b} h := by
    rw [order, Ordering.then_eq_eq] at h
    exact Prod.ext (Std.LawfulEqOrd.eq_of_compare h.2) (Std.LawfulEqOrd.eq_of_compare h.1).symm

/-- Seen from the other side the order is the other way around. -/
theorem order_eq_swap (a b : Tally) : order a b = (order b a).swap := Std.OrientedCmp.eq_swap

/-- No tally of the first list ranks after one of the second. -/
def Leads (ts us : List Tally) : Prop := ∀ a ∈ ts, ∀ b ∈ us, (order a b).isLE

/-- None of the first `k` tallies ranks after one of the others. -/
def Settled (k : Nat) (ts : List Tally) : Prop := Leads (ts.take k) (ts.drop k)

/-- Two lists are in order if a pivot stands between them. -/
theorem leads_of_pivot {p : Tally} {ts us : List Tally} (hts : ∀ a ∈ ts, (order a p).isLE)
    (hus : ∀ b ∈ us, (order p b).isLE) : Leads ts us :=
  fun a ha b hb => Std.TransCmp.isLE_trans (hts a ha) (hus b hb)

/-- Lists behind a settled one leave its front settled. -/
theorem Settled.append {k : Nat} {ts us : List Tally} (hk : k ≤ ts.length) (hts : Settled k ts)
    (h : Leads ts us) : Settled k (ts ++ us) := by
  intro a ha b hb
  rw [List.take_append_of_le_length hk] at ha
  rw [List.drop_append_of_le_length hk, List.mem_append] at hb
  rcases hb with hb | hb
  · exact hts a ha b hb
  · exact h a (List.mem_of_mem_take ha) b hb

/-- A cut behind the first list is settled if it is in the second. -/
theorem Settled.append_left {k : Nat} {ts us : List Tally} (hk : ts.length ≤ k)
    (hus : Settled (k - ts.length) us) (h : Leads ts us) : Settled k (ts ++ us) := by
  intro a ha b hb
  rw [List.take_append, List.take_of_length_le hk, List.mem_append] at ha
  rw [List.drop_append, List.drop_of_length_le hk, List.nil_append] at hb
  rcases ha with ha | ha
  · exact h a ha b (List.mem_of_mem_drop hb)
  · exact hus a ha b hb

/-! ## Selecting around a pivot -/

section

variable {p a : Tally} {ts : List Tally}

/-- What is before the pivot is less than it. -/
theorem order_of_mem_before (h : a ∈ before p ts) : order a p = .lt := by
  simpa using (List.mem_filter.1 h).2

/-- What is beside the pivot compares equal to it. -/
theorem order_of_mem_beside (h : a ∈ beside p ts) : order a p = .eq := by
  simpa using (List.mem_filter.1 h).2

/-- What is after the pivot is greater than it. -/
theorem order_of_mem_after (h : a ∈ after p ts) : order a p = .gt := by
  simpa using (List.mem_filter.1 h).2

/-- Before and beside the pivot nothing is greater than it. -/
theorem isLE_of_mem_front (h : a ∈ before p ts ++ beside p ts) : (order a p).isLE := by
  rcases List.mem_append.1 h with h | h
  · rw [order_of_mem_before h]
    rfl
  · rw [order_of_mem_beside h]
    rfl

/-- Beside and after the pivot nothing is less than it. -/
theorem isLE_of_mem_back (h : a ∈ beside p ts ++ after p ts) : (order p a).isLE := by
  rw [order_eq_swap]
  rcases List.mem_append.1 h with h | h
  · rw [order_of_mem_beside h]
    rfl
  · rw [order_of_mem_after h]
    rfl

variable (p ts)

/-- The three parts around a pivot make up the list. -/
theorem perm_around : (before p ts ++ beside p ts ++ after p ts).Perm ts := by
  induction ts with
  | nil => rfl
  | cons t ts ih =>
    cases h : order t p with
    | lt => simpa [before, beside, after, h] using ih
    | eq =>
      have hmid : (before p ts ++ t :: (beside p ts ++ after p ts)).Perm (t :: ts) :=
        List.perm_middle.trans (by simpa using ih)
      simpa [before, beside, after, h] using hmid
    | gt =>
      have hmid : (before p ts ++ beside p ts ++ t :: after p ts).Perm (t :: ts) :=
        List.perm_middle.trans (ih.cons t)
      simpa [before, beside, after, h] using hmid

end

/-- Selecting only rearranges. -/
theorem perm_select (k : Nat) (ts : List Tally) : (select k ts).Perm ts := by
  fun_induction select k ts with
  | case1 => rfl
  | case2 k ts p _ _ ih => exact ((ih.append_right _).append_right _).trans (perm_around p ts)
  | case3 k ts p => exact perm_around p ts
  | case4 k ts p _ _ _ ih => exact (ih.append_left _).trans (perm_around p ts)

/-- Selection settles as many tallies as it is asked for. -/
theorem settled_select (k : Nat) (ts : List Tally) : Settled k (select k ts) := by
  fun_induction select k ts with
  | case1 k ts hnone =>
    have hts : ts = [] := by
      rw [List.getElem?_eq_none_iff] at hnone
      exact List.eq_nil_of_length_eq_zero (by omega)
    subst hts
    intro a ha
    simp at ha
  | case2 k ts p _ hk ih =>
    rw [List.append_assoc]
    have hlen : k ≤ (select k (before p ts)).length := by rwa [(perm_select _ _).length_eq]
    refine ih.append hlen (leads_of_pivot (fun a ha => ?_) fun b hb => isLE_of_mem_back hb)
    exact isLE_of_mem_front (List.mem_append_left _ ((perm_select _ _).mem_iff.1 ha))
  | case3 k ts p _ hk hk' =>
    refine leads_of_pivot (p := p) (fun a ha => ?_) (fun b hb => ?_)
    · rw [List.take_append_of_le_length (by rw [List.length_append]; exact hk')] at ha
      exact isLE_of_mem_front (List.mem_of_mem_take ha)
    · rw [List.append_assoc, List.drop_append, List.drop_of_length_le (by omega),
        List.nil_append] at hb
      exact isLE_of_mem_back (List.mem_of_mem_drop hb)
  | case4 k ts p _ hk hk' ih =>
    rw [← List.length_append] at ih ⊢
    have hlen : (before p ts ++ beside p ts).length ≤ k := by
      rw [List.length_append]
      omega
    refine .append_left hlen ih (leads_of_pivot (fun a ha => isLE_of_mem_front ha) fun b hb => ?_)
    exact isLE_of_mem_back (List.mem_append_right _ ((perm_select _ _).mem_iff.1 hb))

end Tally

/-! ## Sorting -/

namespace Ranking

variable {ts us : List Tally}

/-- Sorting only rearranges. -/
theorem perm_sort (ts : List Tally) : (sort ts).Perm ts := List.mergeSort_perm _ _

@[simp] theorem length_sort (ts : List Tally) : (sort ts).length = ts.length :=
  (perm_sort ts).length_eq

/-- After sorting no tally ranks after a later one. -/
theorem pairwise_sort (ts : List Tally) : (sort ts).Pairwise fun a b => (Tally.order a b).isLE := by
  refine List.pairwise_mergeSort (fun _ _ _ => Std.TransCmp.isLE_trans) (fun a b => ?_) ts
  rw [Tally.order_eq_swap b]
  cases Tally.order a b <;> rfl

/-- A ranked list is the only one of its tallies. -/
theorem eq_sort (hts : ts.Pairwise fun a b => (Tally.order a b).isLE) (h : ts.Perm us) :
    ts = sort us := by
  refine List.Perm.eq_of_pairwise (fun a b _ _ hab hba => ?_) hts (pairwise_sort us)
    (h.trans (perm_sort us).symm)
  have heq : Tally.order a b = .eq := Std.OrientedCmp.isLE_antisymm hab hba
  exact Std.LawfulEqCmp.eq_of_compare heq

/-- Sorting forgets in what order the tallies came. -/
theorem sort_eq_of_perm (h : ts.Perm us) : sort ts = sort us :=
  eq_sort (pairwise_sort ts) ((perm_sort ts).trans h)

/-- Lists that are in order can be sorted one by one. -/
theorem sort_append (h : Tally.Leads ts us) : sort (ts ++ us) = sort ts ++ sort us := by
  refine (eq_sort (List.pairwise_append.2 ⟨pairwise_sort ts, pairwise_sort us, ?_⟩)
    ((perm_sort ts).append (perm_sort us))).symm
  exact fun a ha b hb => h a ((perm_sort ts).mem_iff.1 ha) b ((perm_sort us).mem_iff.1 hb)

/-- A settled front can be cut off before it is sorted. -/
theorem sort_take {k : Nat} (h : us.Perm ts) (hs : Tally.Settled k us) :
    sort (us.take k) = (sort ts).take k := by
  have hcut : sort ts = sort (us.take k) ++ sort (us.drop k) := by
    rw [← sort_append hs, List.take_append_drop, sort_eq_of_perm h]
  have hfront : (sort (us.take k)).length ≤ k := by
    rw [length_sort]
    exact List.length_take_le k us
  have hback : (sort (us.drop k)).take (k - (sort (us.take k)).length) = [] := by
    rw [List.take_eq_nil_iff, ← List.length_eq_zero_iff, length_sort, length_sort,
      List.length_take, List.length_drop]
    omega
  rw [hcut, List.take_append, List.take_of_length_le hfront, hback, List.append_nil]

/-- Whether or not all tallies are sorted, a ranking is the front of the sorted list. -/
theorem top_eq_take_sort (n : Int) (ts : List Tally) : top n ts = (sort ts).take n.toNat := by
  rw [top]
  split
  case isTrue h => rw [List.take_of_length_le (by rwa [length_sort])]
  case isFalse => exact sort_take (Tally.perm_select _ ts) (Tally.settled_select _ ts)

/-- The first ranks do not depend on the order in which the tallies are listed. -/
theorem top_eq_of_perm (n : Int) (h : ts.Perm us) : top n ts = top n us := by
  rw [top_eq_take_sort, top_eq_take_sort, sort_eq_of_perm h]

end Ranking

end QueryStats
