import QueryStats.Proofs.Balance
import QueryStats.Proofs.Differences

/-!
# Reports on windows of any kind

Nothing is assumed here of the view that a report is made from: its series may differ in length and
its history may be anything, below zero too.  A report is the part that its window covers of one
series of changes for each figure.  So it never reads beyond a series, its figures are as long as
each other, and windows that share a bucket give parts of the same changes that fit together.
-/

namespace QueryStats

namespace Figures

variable {α β γ : Type}

/-- Figures of two kinds taken together. -/
def zipWith (f : α → β → γ) (r : Figures α) (s : Figures β) : Figures γ :=
  ⟨f r.queries s.queries, f r.blocked s.blocked, f r.safeBrowsing s.safeBrowsing,
    f r.safeSearch s.safeSearch, f r.parental s.parental, f r.averageTime s.averageTime⟩

theorem map_map (g : β → γ) (f : α → β) (r : Figures α) : (r.map f).map g = r.map (g ∘ f) := rfl

/-- Mapping figures before they are combined combines the mapped ones. -/
theorem zipWith_map (f : β → β → γ) (g h : α → β) (r : Figures α) :
    zipWith f (r.map g) (r.map h) = r.map fun a => f (g a) (h a) := rfl

/-- A figure has the same name after it was mapped. -/
theorem mem_named_map {f : α → β} {r : Figures α} {p : Text × β} (h : p ∈ (r.map f).named) :
    ∃ a, (p.1, a) ∈ r.named ∧ f a = p.2 := by
  simp only [named, map, List.mem_cons, List.not_mem_nil, or_false] at h
  rcases h with rfl | rfl | rfl | rfl | rfl | rfl <;> exact ⟨_, by simp [named], rfl⟩

/-- A metric is looked up before or after mapping. -/
theorem count?_map (f : α → β) (r : Figures α) (k : Metric) :
    (r.map f).count? k = (r.count? k).map f := by
  cases k <;> rfl

end Figures

namespace View

variable {α : Type} (v : View α)

/-! ## What a window covers -/

/-- The limit is the greatest number that neither the history nor a series falls short of. -/
theorem le_limit_iff {m : Nat} :
    m ≤ v.limit ↔ m ≤ v.history.toNat ∧ ∀ k, m ≤ (v.series.get k).length := by
  simp only [limit, Metrics.toList, List.map_cons, List.map_nil, List.foldl_cons, List.foldl_nil,
    Nat.le_min]
  constructor
  · rintro ⟨⟨⟨⟨⟨⟨⟨h, h₁⟩, h₂⟩, h₃⟩, h₄⟩, h₅⟩, h₆⟩, h₇⟩
    refine ⟨h, fun k => ?_⟩
    cases k <;> assumption
  · rintro ⟨h, hk⟩
    exact ⟨⟨⟨⟨⟨⟨⟨h, hk .requests⟩, hk .lists⟩, hk .safeBrowsing⟩, hk .safeSearch⟩, hk .parental⟩,
      hk .timeSum⟩, hk .timeCount⟩

/-- No series is shorter than the limit. -/
theorem limit_le_length (k : Metric) : v.limit ≤ (v.series.get k).length :=
  (v.le_limit_iff.1 (Nat.le_refl _)).2 k

/-- The limit stays within the history. -/
theorem limit_le_history : v.limit ≤ v.history.toNat := (v.le_limit_iff.1 (Nat.le_refl _)).1

/-- A window is clamped to the positions from zero to the limit. -/
theorem span_bounds (w : Window) :
    0 ≤ (v.span w).first ∧ 0 ≤ (v.span w).last ∧ (v.span w).last ≤ v.limit := by
  obtain ⟨hfirst, -, hlast, -⟩ := w.within_bounds v.history
  simp only [span]
  omega

/-- A clamped window ends within every series. -/
theorem span_le_length (w : Window) (k : Metric) :
    (v.span w).last.toNat ≤ (v.series.get k).length := by
  have hlimit := (v.span_bounds w).2.2
  have hlength := v.limit_le_length k
  omega

/-- The limit as the least of the history and the seven lengths. -/
theorem limit_eq_min :
    let length (k : Metric) : Int := (v.series.get k).length
    (v.limit : Int) = min (max v.history 0) (min (length .requests) (min (length .lists)
      (min (length .safeBrowsing) (min (length .safeSearch) (min (length .parental)
        (min (length .timeSum) (length .timeCount))))))) := by
  simp only [limit, Metrics.toList, List.map_cons, List.map_nil, List.foldl_cons, List.foldl_nil,
    Nat.cast_min, Int.ofNat_toNat, min_assoc, Metrics.get]

/-- A difference and the element behind it are in the window. -/
theorem lt_of_lt_size {w : Window} {i : Nat}
    (hi : i < ((v.span w).last - (v.span w).first - 1).toNat) :
    (v.span w).first.toNat + i + 1 < (v.span w).last.toNat := by
  have hfirst := (v.span_bounds w).1
  omega

/-- How the end of a window is clamped. -/
theorem last_span (first last : Int) :
    (v.span ⟨first, last⟩).last = max 0 (min last v.limit) := by
  have hlimit := v.limit_le_history
  simp only [span, Window.within, clamp_eq_max_min (Int.le_max_right v.history 0)]
  omega

/-- How the start of a window is clamped. -/
theorem first_span {first : Int} (h : first ≤ v.limit) (last : Int) :
    (v.span ⟨first, last⟩).first = max 0 first := by
  have hlimit := v.limit_le_history
  simp only [span, Window.within, clamp_eq_max_min (Int.le_max_right v.history 0)]
  omega

/-- A window of one bucket at most still has one at most where the series cover it. -/
theorem span_narrow {w : Window} (h : w.last ≤ w.first + 1) :
    (v.span w).last ≤ (v.span w).first + 1 := by
  simp only [span, Window.within, clamp_eq_max_min (Int.le_max_right v.history 0)]
  omega

variable [Scalar α]

/-- What each figure changes by from a bucket to the one before it, as far as its series go. -/
def changes : Figures (List α) where
  queries := rates v.series.requests
  blocked := rates v.series.lists
  safeBrowsing := rates v.series.safeBrowsing
  safeSearch := rates v.series.safeSearch
  parental := rates v.series.parental
  averageTime := List.zipWith averageMillis (rates v.series.timeSum) (rates v.series.timeCount)

/-- A report is a part of the changes. -/
theorem report_eq_map (w : Window) :
    v.report w = v.changes.map (slice (v.span w).first.toNat ((v.span w).last.toNat - 1)) := by
  simp only [report, changes, Figures.map, slice_zipWith, ← rates_slice]
  split
  case isTrue h =>
    have hnil : ∀ s : List α, slice (v.span w).first.toNat (v.span w).last.toNat s = [] :=
      slice_eq_nil (by omega)
    simp [hnil]
  case isFalse => rfl

/-- There is one difference fewer than elements, up to the limit. -/
theorem limit_le_length_rates (k : Metric) : v.limit - 1 ≤ (rates (v.series.get k)).length := by
  rw [length_rates]
  exact Nat.sub_le_sub_right (v.limit_le_length k) 1

/-- No series of changes falls short of the limit by more than one. -/
theorem limit_le_length_changes {p : Text × List α} (h : p ∈ v.changes.named) :
    v.limit - 1 ≤ p.2.length := by
  simp only [Figures.named, changes, List.mem_cons, List.not_mem_nil, or_false] at h
  rcases h with rfl | rfl | rfl | rfl | rfl | rfl
  · exact v.limit_le_length_rates .requests
  · exact v.limit_le_length_rates .lists
  · exact v.limit_le_length_rates .safeBrowsing
  · exact v.limit_le_length_rates .safeSearch
  · exact v.limit_le_length_rates .parental
  · rw [List.length_zipWith, Nat.le_min]
    exact ⟨v.limit_le_length_rates .timeSum, v.limit_le_length_rates .timeCount⟩

/-- All figures of a report have an entry for each pair of neighbours in what its window covers. -/
theorem length_report (w : Window) {p : Text × List α} (h : p ∈ (v.report w).named) :
    p.2.length = ((v.span w).last - (v.span w).first - 1).toNat := by
  rw [report_eq_map] at h
  obtain ⟨s, hs, hp⟩ := Figures.mem_named_map h
  have hlen : v.limit - 1 ≤ s.length := v.limit_le_length_changes hs
  obtain ⟨hfirst, hlast, hlimit⟩ := v.span_bounds w
  rw [← hp, length_slice]
  omega

/-- A window without two elements has an empty report. -/
theorem report_eq_nil {w : Window} (h : (v.span w).last ≤ (v.span w).first + 1) :
    v.report w = ⟨[], [], [], [], [], []⟩ := by
  have hnil : ∀ s : List α, slice (v.span w).first.toNat ((v.span w).last.toNat - 1) s = [] :=
    slice_eq_nil (by omega)
  simp only [report_eq_map, Figures.map, hnil]

/-! ## What a report reads -/

section

variable {v} {w : Window} {k : Metric} {counts : List α} {i : Nat}

/-- A count is reported as the differences within the clamped window. -/
theorem count?_report (h : (v.report w).count? k = some counts) :
    counts = rates (slice (v.span w).first.toNat (v.span w).last.toNat (v.series.get k)) := by
  rw [report_eq_map, Figures.count?_map] at h
  rw [rates_slice]
  cases k with
  | timeSum | timeCount => simp [Figures.count?] at h
  | _ => exact (Option.some.inj h).symm

/-- What is reported for a count are its differences. -/
theorem differences_report (h : (v.report w).count? k = some counts) :
    Differences (v.series.get k) (v.span w).first.toNat (v.span w).last.toNat counts :=
  (differences_iff (v.span_le_length w k)).2 (count?_report h)

/-- Each reported difference is that of two neighbours in the window. -/
theorem getElem?_report (h : (v.report w).count? k = some counts)
    (hi : i < ((v.span w).last - (v.span w).first - 1).toNat) :
    ∃ x y, (v.series.get k)[(v.span w).first.toNat + i]? = some x ∧
      (v.series.get k)[(v.span w).first.toNat + i + 1]? = some y ∧ counts[i]? = some (x - y) := by
  rw [count?_report h]
  exact getElem?_rates_slice (v.span_le_length w k) (v.lt_of_lt_size hi)

end

/-- The durations of each pair of neighbours and their number, of which a report has the mean. -/
theorem averageTime_report (w : Window) :
    ∃ sums counts,
      Differences v.series.timeSum (v.span w).first.toNat (v.span w).last.toNat sums ∧
      Differences v.series.timeCount (v.span w).first.toNat (v.span w).last.toNat counts ∧
      sums.length = counts.length ∧
      (v.report w).averageTime = List.zipWith averageMillis sums counts := by
  have hsum : (v.span w).last.toNat ≤ v.series.timeSum.length := v.span_le_length w .timeSum
  have hcount : (v.span w).last.toNat ≤ v.series.timeCount.length := v.span_le_length w .timeCount
  refine ⟨_, _, (differences_iff hsum).2 rfl, (differences_iff hcount).2 rfl, ?_, ?_⟩
  · simp only [length_rates, length_slice, Nat.min_eq_left hsum, Nat.min_eq_left hcount]
  · rw [report_eq_map, rates_slice, rates_slice, ← slice_zipWith]
    rfl

/-- Each reported average is that of two neighbouring sums and counts. -/
theorem getElem?_averageTime_report {w : Window} {i : Nat}
    (hi : i < ((v.span w).last - (v.span w).first - 1).toNat) :
    ∃ s s' c c', v.series.timeSum[(v.span w).first.toNat + i]? = some s ∧
      v.series.timeSum[(v.span w).first.toNat + i + 1]? = some s' ∧
      v.series.timeCount[(v.span w).first.toNat + i]? = some c ∧
      v.series.timeCount[(v.span w).first.toNat + i + 1]? = some c' ∧
      (v.report w).averageTime[i]? = some (averageMillis (s - s') (c - c')) := by
  have hsum : (v.span w).last.toNat ≤ v.series.timeSum.length := v.span_le_length w .timeSum
  have hcount : (v.span w).last.toNat ≤ v.series.timeCount.length := v.span_le_length w .timeCount
  obtain ⟨sums, counts, hsums, hcounts, -, htimes⟩ := v.averageTime_report w
  obtain ⟨s, s', hs, hs', hi₁⟩ := getElem?_rates_slice hsum (v.lt_of_lt_size hi)
  obtain ⟨c, c', hc, hc', hi₂⟩ := getElem?_rates_slice hcount (v.lt_of_lt_size hi)
  refine ⟨s, s', c, c', hs, hs', hc, hc', ?_⟩
  rw [htimes, (differences_iff hsum).1 hsums, (differences_iff hcount).1 hcounts,
    List.getElem?_zipWith_eq_some]
  exact ⟨_, _, hi₁, hi₂, rfl⟩

/-- Whatever the view and the window, a report reads no value that its series do not have.  All its
figures have an entry for each pair of neighbours from the start of the window up to its end, or to
where the shortest series ends: the difference of the two values, or the mean that follows from such
differences.  Windows without two neighbours have none. -/
theorem report_reads_within (w : Window) :
    let n := max v.history 0
    let length (k : Metric) : Int := (v.series.get k).length
    let limit := min n (min (length .requests) (min (length .lists) (min (length .safeBrowsing)
      (min (length .safeSearch) (min (length .parental)
        (min (length .timeSum) (length .timeCount)))))))
    let first := clamp 0 n w.first
    let last := min (clamp 0 n w.last) limit
    let size := (last - first - 1).toNat
    let r := v.report w
    (∀ k counts, r.count? k = some counts →
      Differences (v.series.get k) first.toNat last.toNat counts) ∧
    (∃ sums counts, Differences v.series.timeSum first.toNat last.toNat sums ∧
      Differences v.series.timeCount first.toNat last.toNat counts ∧
      sums.length = counts.length ∧ r.averageTime = List.zipWith averageMillis sums counts) ∧
    (∀ figure ∈ r.named, figure.2.length = size) ∧
    (∀ i < size,
      (∀ k counts, r.count? k = some counts → ∃ x y,
        (v.series.get k)[first.toNat + i]? = some x ∧
        (v.series.get k)[first.toNat + i + 1]? = some y ∧ counts[i]? = some (x - y)) ∧
      ∃ s s' c c', v.series.timeSum[first.toNat + i]? = some s ∧
        v.series.timeSum[first.toNat + i + 1]? = some s' ∧
        v.series.timeCount[first.toNat + i]? = some c ∧
        v.series.timeCount[first.toNat + i + 1]? = some c' ∧
        r.averageTime[i]? = some (if Scalar.isZero (c - c') then 0
          else (s - s') / (c - c') * Scalar.thousand)) ∧
    (w.last ≤ w.first + 1 ∨ last ≤ first + 1 → r = ⟨[], [], [], [], [], []⟩) := by
  intro n length limit first last size r
  have hfirst : first = (v.span w).first := rfl
  have hlast : last = (v.span w).last := congrArg (min (clamp 0 n w.last)) v.limit_eq_min.symm
  clear_value first last
  subst hfirst hlast
  refine ⟨fun k counts => differences_report, v.averageTime_report w,
    fun figure => v.length_report w, fun i hi => ⟨fun k counts h => getElem?_report h hi,
      v.getElem?_averageTime_report hi⟩, ?_⟩
  rintro (h | h)
  · exact v.report_eq_nil (v.span_narrow h)
  · exact v.report_eq_nil h

/-- Series of different lengths, a window beyond both ends, an inverted one and one behind the
limit. -/
theorem report_reads_within_shortest :
    let v : View Float := ⟨5, ⟨[9, 6, 4, 1], [3, 2, 1, 0], [1, 1, 0], [2, 1, 1, 0, 0],
      [0, 0, 0, 0, 0, 0], [7, 4, 4, 1], [4, 2, 2, 1]⟩⟩
    let r := v.report ⟨-2, 9⟩
    Differences v.series.requests 0 3 [3, 2] ∧
    (∃ sums counts, Differences v.series.timeSum 0 3 sums ∧
      Differences v.series.timeCount 0 3 counts ∧ sums.length = counts.length ∧
      r.averageTime = List.zipWith averageMillis sums counts) ∧
    (∀ figure ∈ r.named, figure.2.length = 2) ∧
    v.report ⟨3, 1⟩ = ⟨[], [], [], [], [], []⟩ ∧ v.report ⟨4, 5⟩ = ⟨[], [], [], [], [], []⟩ := by
  intro v r
  have hrequests : r.count? .requests = some [3, 2] := by decide +kernel
  obtain ⟨hreads, hmeans, hlength, -⟩ := v.report_reads_within ⟨-2, 9⟩
  obtain ⟨-, -, -, -, hinverted⟩ := v.report_reads_within ⟨3, 1⟩
  obtain ⟨-, -, -, -, hsingle⟩ := v.report_reads_within ⟨4, 5⟩
  refine ⟨hreads .requests _ hrequests, hmeans, fun figure hfigure => ?_,
    hinverted (.inl (by decide)), hsingle (.inl (by decide))⟩
  rw [hlength figure hfigure]
  decide +kernel

/-! ## Neighbouring windows -/

/-- Windows that share a bucket are reported together. -/
theorem report_append {a b c : Int} (hab : a ≤ b) (hbc : b < c) (h₀ : 0 ≤ b) (hb : b < v.limit) :
    v.report ⟨a, c⟩ = .zipWith (· ++ ·) (v.report ⟨a, b + 1⟩) (v.report ⟨b, c⟩) := by
  have ha : a ≤ v.limit := by omega
  rw [report_eq_map, report_eq_map, report_eq_map, Figures.zipWith_map, v.first_span ha,
    v.first_span ha, v.first_span hb.le, last_span, last_span, last_span]
  congr 1
  funext changes
  -- Both parts meet at the change from the shared bucket.
  have hmeet : (max 0 (min (b + 1) (v.limit : Int))).toNat - 1 = (max 0 b).toNat := by omega
  rw [hmeet]
  exact (slice_append_slice (by omega) (by omega) changes).symm

/-- A window is a slice of the whole history. -/
theorem report_eq_map_whole (w : Window) :
    v.report w = (v.report ⟨0, v.history⟩).map fun whole =>
      (whole.drop (v.span w).first.toNat).take ((v.span w).last - (v.span w).first - 1).toNat := by
  have hlimit := v.limit_le_history
  have hfirst : (v.span ⟨0, v.history⟩).first.toNat = 0 := by
    rw [v.first_span (Int.natCast_nonneg _)]
    rfl
  have hlast : (v.span ⟨0, v.history⟩).last.toNat = v.limit := by
    rw [last_span]
    omega
  obtain ⟨hw, -, hlim⟩ := v.span_bounds w
  have hsize : ((v.span w).last - (v.span w).first - 1).toNat =
      (v.span w).last.toNat - 1 - (v.span w).first.toNat := by omega
  rw [report_eq_map, report_eq_map, Figures.map_map, hfirst, hlast, hsize]
  congr 1
  funext changes
  exact (drop_slice (by omega) changes).symm

/-- Reports on two windows that share a bucket make up the report on both together, and every report
is a part of the one on the whole history. -/
theorem reports_fit_together :
    (∀ a b c : Int, a ≤ b → b < c → 0 ≤ b → b < v.history →
      (∀ k, b < (v.series.get k).length) →
        v.report ⟨a, c⟩ = .zipWith (· ++ ·) (v.report ⟨a, b + 1⟩) (v.report ⟨b, c⟩)) ∧
    ∀ w : Window,
      let n := max v.history 0
      let first := clamp 0 n w.first
      let size := (min (clamp 0 n w.last) v.limit - first - 1).toNat
      (∀ figure ∈ (v.report w).named, figure.2.length = size) ∧
      v.report w =
        (v.report ⟨0, v.history⟩).map fun whole => (whole.drop first.toNat).take size := by
  refine ⟨?_, fun w => ⟨fun _ => v.length_report w, v.report_eq_map_whole w⟩⟩
  intro a b c hab hbc h₀ hhistory hlength
  have hb : b.toNat + 1 ≤ v.limit := by
    refine v.le_limit_iff.2 ⟨by omega, fun k => ?_⟩
    have hk := hlength k
    omega
  exact v.report_append hab hbc h₀ (by omega)

/-- The same series, cut at the second bucket. -/
theorem reports_fit_together_at_bucket :
    let v : View Float := ⟨5, ⟨[9, 6, 4, 1], [3, 2, 1, 0], [1, 1, 0], [2, 1, 1, 0, 0],
      [0, 0, 0, 0, 0, 0], [7, 4, 4, 1], [4, 2, 2, 1]⟩⟩
    (∀ k, 1 < ((v.series.get k).length : Int)) ∧
    v.report ⟨-1, 9⟩ = .zipWith (· ++ ·) (v.report ⟨-1, 2⟩) (v.report ⟨1, 9⟩) ∧
    v.report ⟨1, 9⟩ = (v.report ⟨0, 5⟩).map fun whole => (whole.drop 1).take 1 := by
  intro v
  have hlength : ∀ k, 1 < ((v.series.get k).length : Int) := by
    intro k
    cases k <;> decide
  obtain ⟨hglue, hpart⟩ := v.reports_fit_together
  exact ⟨hlength, hglue (-1) 1 9 (by decide) (by decide) (by decide) (by decide) hlength,
    (hpart ⟨1, 9⟩).2⟩

end View

end QueryStats
