import QueryStats.Proofs.Ranking

/-!
# Rankings from what a library promises

A ranking selects its front and sorts it.  Of selection and of sorting it needs no more than what
they promise: selection rearranges the tallies so that none behind the cut ranks before one in front
of it, sorting rearranges them so that none ranks before an earlier one.  Whatever keeps these
promises gives the front of the one ranked list.
-/

namespace QueryStats

namespace Tally

/-- A greater count comes first; of equal counts, the key that is less byte by byte. -/
def Precedes (a b : Tally) : Prop := b.2 < a.2 ∨ a.2 = b.2 ∧ a.1 < b.1

instance (a b : Tally) : Decidable (a.Precedes b) := inferInstanceAs (Decidable (_ ∨ _))

/-- The order on tallies is the one by count and then by key. -/
theorem order_eq_lt_iff {a b : Tally} : order a b = .lt ↔ a.Precedes b := by
  rw [order, Ordering.then_eq_lt, Std.compare_eq_lt, Std.compare_eq_iff_eq, Text.compare_eq_lt,
    Precedes, eq_comm (a := b.2)]

/-- A tally ranks no later than another unless that one precedes it. -/
theorem isLE_order_iff {a b : Tally} : (order a b).isLE ↔ ¬ b.Precedes a := by
  rw [← order_eq_lt_iff, order_eq_swap b]
  cases order a b <;> decide

/-- A list with its first `k` tallies chosen: it has the same tallies, and none behind the cut
precedes one in front of it. -/
structure Selects (k : Nat) (ts us : List Tally) : Prop where
  perm : us.Perm ts
  settled : ∀ a ∈ us.take k, ∀ b ∈ us.drop k, ¬ b.Precedes a

/-- A list in order: it has the same tallies, and none precedes an earlier one. -/
structure Sorts (ts us : List Tally) : Prop where
  perm : us.Perm ts
  ordered : us.Pairwise fun a b => ¬ b.Precedes a

/-- The selection by pivots selects. -/
theorem selects_select (k : Nat) (ts : List Tally) : Selects k ts (select k ts) where
  perm := perm_select k ts
  settled a ha b hb := isLE_order_iff.1 (settled_select k ts a ha b hb)

/-- After a selection the front is settled. -/
theorem Selects.settled_order {k : Nat} {ts us : List Tally} (h : Selects k ts us) :
    Settled k us := fun a ha b hb => isLE_order_iff.2 (h.settled a ha b hb)

end Tally

namespace Ranking

open Tally (Precedes Selects Sorts)

/-- The sort by merging sorts. -/
theorem sorts_sort (ts : List Tally) : Sorts ts (sort ts) where
  perm := perm_sort ts
  ordered := (pairwise_sort ts).imp Tally.isLE_order_iff.1

/-- There is only one way to sort. -/
theorem eq_sort_of_sorts {ts us : List Tally} (h : Sorts ts us) : us = sort ts :=
  eq_sort (h.ordered.imp Tally.isLE_order_iff.2) h.perm

/-- What a ranking may be if selecting and sorting keep their promises. -/
inductive Tops : Int → List Tally → List Tally → Prop
  | none {n : Int} {ts : List Tally} : n ≤ 0 ∨ ts = [] → Tops n ts []
  | all {n : Int} {ts us : List Tally} :
    0 < n → ts.length ≤ n.toNat → Sorts ts us → Tops n ts us
  | front {n : Int} {ts vs us : List Tally} :
    0 < n → n.toNat < ts.length → Selects n.toNat ts vs → Sorts (vs.take n.toNat) us → Tops n ts us

variable {ts us : List Tally} {n : Int}

/-- The first ranks are found by selecting and sorting them. -/
theorem tops_top (n : Int) (ts : List Tally) : Tops n ts (top n ts) := by
  by_cases hnone : n ≤ 0 ∨ ts = []
  · have htop : top n ts = [] := by
      rw [top_eq_take_sort, List.take_eq_nil_iff, ← List.length_eq_zero_iff, length_sort,
        List.length_eq_zero_iff]
      exact hnone.imp_left (by omega)
    rw [htop]
    exact .none hnone
  · have hpos : 0 < n := by omega
    rw [top]
    split
    case isTrue h => exact .all hpos h (sorts_sort ts)
    case isFalse h => exact .front hpos (by omega) (Tally.selects_select _ ts) (sorts_sort _)

/-- A ranking is the front of the sorted list, both when everything is sorted and when the front is
selected first. -/
theorem Tops.eq_take_sort (h : Tops n ts us) : us = (sort ts).take n.toNat := by
  cases h with
  | none hnone =>
    symm
    rw [List.take_eq_nil_iff, ← List.length_eq_zero_iff, length_sort, List.length_eq_zero_iff]
    exact hnone.imp_left (by omega)
  | all _ hlen hsort =>
    rw [eq_sort_of_sorts hsort, List.take_of_length_le (by rwa [length_sort])]
  | front _ _ hselect hsort =>
    rw [eq_sort_of_sorts hsort, sort_take hselect.perm hselect.settled_order]

/-! ## The ranked list of a map -/

/-- Without duplicates each tally strictly precedes the later ones. -/
theorem pairwise_precedes_sort (h : ts.Nodup) : (sort ts).Pairwise Precedes := by
  have hnd : (sort ts).Pairwise (· ≠ ·) := (perm_sort ts).nodup_iff.2 h
  refine (hnd.and (pairwise_sort ts)).imp fun {a b} hab => ?_
  rw [← Tally.order_eq_lt_iff]
  cases hord : Tally.order a b with
  | lt => rfl
  | eq => exact absurd (Std.LawfulEqCmp.eq_of_compare hord) hab.1
  | gt =>
    have hle := hab.2
    rw [hord] at hle
    exact absurd hle Bool.false_ne_true

/-- A list in which each tally precedes the later ones is sorted. -/
theorem eq_sort_of_precedes (hts : ts.Perm us) (h : ts.Pairwise Precedes) : ts = sort us := by
  refine eq_sort (h.imp fun {a b} hab => ?_) hts
  rw [Tally.order_eq_lt_iff.2 hab]
  rfl

/-- The tallies of a map can be ranked in one way only. -/
theorem ranks_iff (m : Frequency) :
    ts.Perm m.toList ∧ ts.Pairwise Precedes ↔ ts = sort m.toList := by
  have hnd : m.toList.Nodup :=
    Std.ExtTreeMap.distinct_keys_toList.imp fun {a b} h e => h (by simp [e])
  constructor
  · rintro ⟨hts, hord⟩
    exact eq_sort_of_precedes hts hord
  · rintro rfl
    exact ⟨perm_sort _, pairwise_precedes_sort hnd⟩

/-- The front of the sorted tallies of a map, in whatever order they were listed. -/
theorem take_sort_of_perm_toList {m : Frequency} (h : ts.Perm m.toList) (n : Int) :
    (sort ts).take n.toNat = (sort m.toList).take (min (max n 0).toNat m.size) := by
  have hlength : (sort m.toList).length = m.size := by
    rw [length_sort, Std.ExtTreeMap.length_toList]
  have hn : (max n 0).toNat = n.toNat := by omega
  rw [sort_eq_of_perm h, hn, ← List.take_take, ← hlength, List.take_length]

/-- Fewer ranks are a prefix of more. -/
theorem top_prefix_of_perm (h : ts.Perm us) {a b : Int} (hab : a ≤ b) : top a ts <+: top b us := by
  rw [top_eq_take_sort, top_eq_take_sort, sort_eq_of_perm h]
  exact List.take_prefix_take_left (by omega)

/-- A ranking of a map holds its tallies of highest rank, as many as are asked for or there are.  It
is the same whatever the order in which the map is gone through, and whatever selecting and sorting
do apart from what they promise.  A shorter ranking is the front of a longer one, and the ranked
keys are those of the full ranking. -/
theorem top_is_front_of_ranked (m : Frequency) :
    ∃ ranked : List Tally,
      (∀ ts : List Tally, ts.Perm m.toList ∧ ts.Pairwise Precedes ↔ ts = ranked) ∧
      (∀ ts : List Tally, ts.Perm m.toList → ∀ n : Int,
        (∀ us, Tops n ts us ↔ us = ranked.take (min (max n 0).toNat m.size)) ∧
        top n ts = ranked.take (min (max n 0).toNat m.size)) ∧
      (∀ ts us : List Tally, ts.Perm m.toList → us.Perm m.toList → ∀ a b : Int, a ≤ b →
        top a ts <+: top b us) ∧
      ∀ ts : List Tally, ts.Perm m.toList →
        (∀ us, Sorts ts us → us.map (·.1) = ranked.map (·.1)) ∧ keys ts = ranked.map (·.1) := by
  refine ⟨sort m.toList, fun ts => ranks_iff m, fun ts hts n => ?_,
    fun ts us hts hus _ _ => top_prefix_of_perm (hts.trans hus.symm),
    fun ts hts => ⟨fun us hus => ?_, ?_⟩⟩
  · have htop : top n ts = (sort m.toList).take (min (max n 0).toNat m.size) := by
      rw [top_eq_take_sort, take_sort_of_perm_toList hts]
    refine ⟨fun us => ⟨fun h => ?_, fun h => ?_⟩, htop⟩
    · rw [h.eq_take_sort, take_sort_of_perm_toList hts]
    · rw [h, ← htop]
      exact tops_top n ts
  · rw [eq_sort_of_sorts hus, sort_eq_of_perm hts]
  · rw [keys, sort_eq_of_perm hts]

/-- Two hosts that are equally frequent go by their names. -/
theorem top_is_front_of_ranked_among_equals :
    let ts : List Tally := [([99], 7), ([98], 2), ([97], 2)]
    let m : Frequency := Frequency.addAll ∅ ts
    ts.Perm m.toList ∧ (1 : Int) ≤ 2 ∧ top 1 ts <+: top 2 m.toList ∧
      top 2 ts = [([99], 7), ([97], 2)] ∧ keys ts = [[99], [97], [98]] := by
  intro ts m
  have hts : ts.Perm m.toList := by decide +kernel
  have hle : (1 : Int) ≤ 2 := by decide
  obtain ⟨ranked, hranked, htop, hfront, hkeys⟩ := top_is_front_of_ranked m
  have hr : [([99], 7), ([97], 2), ([98], 2)] = ranked := (hranked _).1 (by decide +kernel)
  have hsize : m.size = 3 := by decide +kernel
  refine ⟨hts, hle, hfront ts m.toList hts (.refl _) 1 2 hle, ?_, ?_⟩
  · rw [(htop ts hts 2).2, ← hr, hsize]
    rfl
  · rw [(hkeys ts hts).2, ← hr]
    rfl

end Ranking

end QueryStats
