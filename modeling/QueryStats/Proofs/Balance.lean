import QueryStats.Proofs.Buckets

/-!
# Reports and totals in balance

What a report lists for the buckets of a window adds up to the difference of the slots at its two
ends.  So the totals, which are kept beside the history, are what a report on the whole history
lists and the oldest slot together; and they are what it lists for as long as that slot is empty.
-/

namespace QueryStats

/-- The figures that count queries, each under its metric. -/
def Figures.count? {α : Type} (r : Figures α) : Metric → Option α
  | .requests => some r.queries
  | .lists => some r.blocked
  | .safeBrowsing => some r.safeBrowsing
  | .safeSearch => some r.safeSearch
  | .parental => some r.parental
  | .timeSum | .timeCount => none

/-- The figures of a summary that count something are the totals of their metrics. -/
theorem Metrics.get_of_count?_summary {α : Type} [Scalar α] {m : Metrics α} {k : Metric} {x : α}
    (h : m.summary.count? k = some x) : m.get k = x := by
  cases k with
  | timeSum | timeCount => simp [Figures.count?] at h
  | _ => exact Option.some.inj h

/-- A window that covers all of the history has every bucket but the oldest. -/
theorem Window.buckets_of_whole {history : Nat} {w : Window} (hfirst : w.first ≤ 0)
    (hlast : history ≤ w.last) : w.buckets history = List.range' 0 (history - 1) := by
  have hclamp := clamp_eq_max_min (Int.natCast_nonneg history)
  have hstart : clamp 0 history w.first = 0 := by
    rw [hclamp]
    omega
  have hend : clamp 0 history w.last = history := by
    rw [hclamp]
    omega
  rw [buckets, hstart, hend]
  congr 1
  omega

namespace Double

/-- Doubles added up from the first to the last. -/
def sum (xs : List Float) : Float := xs.foldl (· + ·) 0

/-- Adding up doubles that are whole is exact as long as the sum stays below `2 ^ 53`. -/
theorem foldl_ofNat {n : Nat} {ns : List Nat} (h : n + ns.sum < 2 ^ 53) :
    (ns.map Float.ofNat).foldl (· + ·) (Float.ofNat n) = Float.ofNat (n + ns.sum) := by
  induction ns generalizing n with
  | nil => rfl
  | cons m ns ih =>
    rw [List.sum_cons, ← Nat.add_assoc] at h ⊢
    rw [List.map_cons, List.foldl_cons, ofNat_add (by omega), ih h]

/-- Small enough numbers are added up without rounding. -/
theorem sum_ofNat {ns : List Nat} (h : ns.sum < 2 ^ 53) :
    sum (ns.map Float.ofNat) = Float.ofNat ns.sum := by
  have hzero : 0 + ns.sum < 2 ^ 53 := by rwa [Nat.zero_add]
  have hsum := foldl_ofNat hzero
  rwa [Nat.zero_add] at hsum

end Double

namespace Store

/-! ## Buckets between two slots -/

/-- How many of the queries of some buckets a metric counts. -/
def countedIn (k : Metric) (first n : Nat) (es : List (Event Float)) : Nat :=
  ((List.range' first n).map fun j => Query.counted k (bucket j es)).sum

/-- A slot has what the buckets up to an older slot have, and what the older slot has. -/
theorem counted_older_eq (k : Metric) (first n : Nat) (es : List (Event Float)) :
    Query.counted k (older first es) =
      Query.counted k (older (first + n) es) + countedIn k first n es := by
  induction n generalizing first with
  | zero => rfl
  | succ n ih =>
    have hnext : first + 1 + n = first + (n + 1) := by omega
    have hstep := ih (first + 1)
    rw [hnext] at hstep
    rw [older_eq_append_bucket first, Query.counted_append, hstep, countedIn, countedIn,
      List.range'_succ, List.map_cons, List.sum_cons]
    omega

section

variable {es : List (Event Float)} {k : Metric}

/-- What counts for a metric before any rotation is less than all that was recorded. -/
theorem counted_older_lt (h : records es < 2 ^ 53) (k : Metric) (j : Nat) :
    Query.counted k (older j es) < 2 ^ 53 :=
  Nat.lt_of_le_of_lt (Query.counted_le_length k _) (Nat.lt_of_le_of_lt (length_recorded_le _ es) h)

/-- Below `2 ^ 53` records the tally of a count is exact. -/
theorem tally_older (h : records es < 2 ^ 53) (hk : k ≠ .timeSum) (j : Nat) :
    tally k (older j es) = Float.ofNat (Query.counted k (older j es)) :=
  tally_eq_ofCount Scalar.counts_float hk (Nat.lt_of_le_of_lt (length_recorded_le _ es) h)

/-- The gains of neighbouring buckets add up to what was counted in all of them. -/
theorem sum_gains (h : records es < 2 ^ 53) (hk : k ≠ .timeSum) (first n : Nat) :
    Double.sum ((List.range' first n).map fun j => gain k j es) =
      Float.ofNat (countedIn k first n es) := by
  have hgain : ((List.range' first n).map fun j => gain k j es) =
      ((List.range' first n).map fun j => Query.counted k (bucket j es)).map Float.ofNat := by
    rw [List.map_map]
    exact List.map_congr_left fun j _ => gain_eq_ofCount Scalar.counts_float hk j h
  have hlt := counted_older_lt h k first
  rw [counted_older_eq k first n] at hlt
  rw [hgain]
  exact Double.sum_ofNat (Nat.lt_of_le_of_lt (Nat.le_add_left _ _) hlt)

/-- What the buckets between two slots gained is the difference of the slots. -/
theorem sum_gains_eq_sub (h : records es < 2 ^ 53) (hk : k ≠ .timeSum) (first n : Nat) :
    Double.sum ((List.range' first n).map fun j => gain k j es) =
      tally k (older first es) - tally k (older (first + n) es) := by
  have hlt := counted_older_lt h k first
  rw [counted_older_eq k first n] at hlt
  rw [sum_gains h hk, tally_older h hk, tally_older h hk, counted_older_eq k first n,
    Double.ofNat_add_sub hlt]

/-- The older slot and the gains since then give the newer slot. -/
theorem sum_gains_add (h : records es < 2 ^ 53) (hk : k ≠ .timeSum) (first n : Nat) :
    Double.sum ((List.range' first n).map fun j => gain k j es) + tally k (older (first + n) es) =
      tally k (older first es) := by
  have hlt := counted_older_lt h k first
  rw [counted_older_eq k first n, Nat.add_comm] at hlt
  rw [sum_gains h hk, tally_older h hk, tally_older h hk, counted_older_eq k first n,
    Double.ofNat_add hlt, Nat.add_comm]

/-- Where nothing is older, the gains are all there is. -/
theorem sum_gains_eq (h : records es < 2 ^ 53) (hk : k ≠ .timeSum) (first n : Nat)
    (hnone : older (first + n) es = []) :
    Double.sum ((List.range' first n).map fun j => gain k j es) = tally k (older first es) := by
  have hcount : Query.counted k (older first es) = countedIn k first n es := by
    rw [counted_older_eq k first n, hnone]
    exact Nat.zero_add _
  rw [sum_gains h hk, tally_older h hk, hcount]

end

/-! ## Reports -/

/-- A figure that counts queries lists the gains of its metric. -/
theorem Recalls.count?_report {s : Store Float} {es : List (Event Float)} (hr : Recalls s es)
    {w : Window} {k : Metric} {counts : List Float}
    (h : (s.view.report w).count? k = some counts) :
    k ≠ .timeSum ∧ counts = (w.buckets s.history).map fun j => gain k j es := by
  rw [hr.report_view] at h
  cases k with
  | timeSum | timeCount => simp [Figures.count?] at h
  | _ => exact ⟨by decide, (Option.some.inj h).symm⟩

section

variable {s : Store Float} {es : List (Event Float)} {w : Window} {k : Metric}
  {counts : List Float}

/-- The figures of a window add up to the difference between its two ends. -/
theorem Recalls.sum_window (hr : Recalls s es) (h : records es < 2 ^ 53) {first last : Int}
    (hfirst : first = clamp 0 s.history w.first) (hlast : last = clamp 0 s.history w.last)
    (hlt : first < last) (hcounts : (s.view.report w).count? k = some counts) :
    Double.sum counts =
      tally k (older first.toNat es) - tally k (older (last - 1).toNat es) := by
  obtain ⟨hk, rfl⟩ := hr.count?_report hcounts
  have hnonneg : 0 ≤ first := by
    rw [hfirst, clamp_eq_max_min (Int.natCast_nonneg _)]
    omega
  have hend : (last - 1).toNat = first.toNat + (last - first - 1).toNat := by omega
  rw [hend, ← sum_gains_eq_sub h hk, Window.buckets, ← hfirst, ← hlast]

/-- The figures of all buckets, with what the oldest bucket started from, add up to the total. -/
theorem Recalls.sum_whole_add (hr : Recalls s es) (h : records es < 2 ^ 53) (hfirst : w.first ≤ 0)
    (hlast : s.history ≤ w.last) (hcounts : (s.view.report w).count? k = some counts) :
    Double.sum counts + tally k (older (s.history - 1) es) = tally k (older 0 es) := by
  obtain ⟨hk, rfl⟩ := hr.count?_report hcounts
  have hadd := sum_gains_add h hk 0 (s.history - 1)
  rwa [Nat.zero_add, ← Window.buckets_of_whole hfirst hlast] at hadd

/-- As long as nothing has been pushed out of the history, the figures add up to the total. -/
theorem Recalls.sum_whole (hr : Recalls s es) (h : records es < 2 ^ 53) (hfirst : w.first ≤ 0)
    (hlast : s.history ≤ w.last) (hcounts : (s.view.report w).count? k = some counts)
    (hrot : rotations (sinceReset es) + 2 ≤ s.history) :
    Double.sum counts = tally k (older 0 es) := by
  obtain ⟨hk, rfl⟩ := hr.count?_report hcounts
  have hnone : older (0 + (s.history - 1)) es = [] := older_eq_nil (by omega)
  rw [Window.buckets_of_whole hfirst hlast]
  exact sum_gains_eq h hk 0 _ hnone

end

/-- Each figure that counts queries, added up over a window, is the difference of its slots at the
two ends of the window.  Over the whole history, it gives the figure of the summary together with
the oldest slot; and on its own if there were at least two rotations fewer, since the start or the
last reset, than there are slots. -/
theorem report_adds_up (requested : Nat) {es : List (Event Float)} (h : records es < 2 ^ 53) :
    let s := (create requested).run es
    (∀ w : Window,
      let first := clamp 0 s.history w.first
      let last := clamp 0 s.history w.last
      first < last → ∀ k counts, (s.view.report w).count? k = some counts →
        ∃ newest oldest, (s.view.series.get k)[first.toNat]? = some newest ∧
          (s.view.series.get k)[(last - 1).toNat]? = some oldest ∧
          Double.sum counts = newest - oldest) ∧
    ∀ w : Window, w.first ≤ 0 → s.history ≤ w.last → ∀ k counts total,
      (s.view.report w).count? k = some counts → s.totals.summary.count? k = some total →
        (∃ oldest, (s.view.series.get k)[s.history - 1]? = some oldest ∧
          Double.sum counts + oldest = total) ∧
        (rotations (sinceReset es) + 2 ≤ s.history → Double.sum counts = total) := by
  intro s
  have hs : s.history = historyFor requested := history_run_create requested es
  have hr : Recalls s es := recalls_run requested es
  have slot : ∀ k j, j < s.history → (s.view.series.get k)[j]? = some (tally k (older j es)) :=
    fun k j hj => getElem?_series_run requested es k (hs ▸ hj)
  refine ⟨?_, ?_⟩
  · intro w first last hlt k counts hcounts
    have hbounds : 0 ≤ first ∧ last ≤ s.history := by
      have hclamp := clamp_eq_max_min (Int.natCast_nonneg s.history)
      rw [show first = _ from hclamp w.first, show last = _ from hclamp w.last]
      omega
    exact ⟨_, _, slot k first.toNat (by omega), slot k (last - 1).toNat (by omega),
      hr.sum_window h rfl rfl hlt hcounts⟩
  · intro w hfirst hlast k counts total hcounts htotal
    have hmin : 2 ≤ s.history := hs ▸ (historyFor_mem requested).1
    have htally : tally k (older 0 es) = total := by
      rw [← hr.totals]
      exact Metrics.get_of_count?_summary htotal
    rw [← htally]
    exact ⟨⟨_, slot k (s.history - 1) (by omega), hr.sum_whole_add h hfirst hlast hcounts⟩,
      hr.sum_whole h hfirst hlast hcounts⟩

/-- Four records in three buckets of a history that has room for four. -/
theorem report_adds_up_within_history :
    let q : Query Float := ⟨.lists, some 2⟩
    let es : List (Event Float) :=
      [.record q, .rotate, .record q, .record ⟨.parental, none⟩, .rotate, .record q]
    let s := (create 4 : Store Float).run es
    records es < 2 ^ 53 ∧
    (∃ newest oldest, (s.view.series.get .lists)[1]? = some newest ∧
      (s.view.series.get .lists)[2]? = some oldest ∧ Double.sum [1] = newest - oldest) ∧
    rotations (sinceReset es) + 2 ≤ s.history ∧ Double.sum [1, 2, 1] = s.totals.requests := by
  intro q es s
  have h : records es < 2 ^ 53 := by decide
  have hrot : rotations (sinceReset es) + 2 ≤ s.history := by decide
  have hlists : (s.view.report ⟨1, 3⟩).count? .lists = some [1] := by decide +kernel
  have hrequests : (s.view.report ⟨-3, 9⟩).count? .requests = some [1, 2, 1] := by decide +kernel
  obtain ⟨hwindow, hall⟩ := report_adds_up 4 h
  have hsum := hall ⟨-3, 9⟩ (by decide) (by decide) .requests [1, 2, 1] s.totals.requests hrequests
    rfl
  exact ⟨h, hwindow ⟨1, 3⟩ (by decide) .lists [1] hlists, hrot, hsum.2 hrot⟩

end Store

end QueryStats
