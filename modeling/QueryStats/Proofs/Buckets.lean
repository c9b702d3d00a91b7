import QueryStats.Proofs.Tally
import QueryStats.Report

/-!
# Reports read back bucket by bucket

A report takes differences of neighbouring slots.  Since slot `j` holds what is at least `j`
rotations old, such a difference tells about the queries that are exactly `j` rotations old: those
of one bucket.
-/

namespace QueryStats

section

variable {α : Type}

/-- A part of a series that is given by position has the values at the positions of the part. -/
theorem slice_map_range (f : Nat → α) {first last n : Nat} (h : last ≤ n) :
    slice first last ((List.range n).map f) = (List.range' first (last - first)).map f := by
  rw [slice, ← List.map_take, ← List.map_drop, List.take_range, Nat.min_eq_left h,
    List.range_eq_range', List.drop_range']
  simp

/-- The differences of a series that is given by position, by position. -/
theorem rates_map_range' [Sub α] (f : Nat → α) (first n : Nat) :
    rates ((List.range' first n).map f) =
      (List.range' first (n - 1)).map fun j => f j - f (j + 1) := by
  induction n generalizing first with
  | zero => rfl
  | succ n ih =>
    cases n with
    | zero => rfl
    | succ n =>
      have ih := ih (first + 1)
      simp only [List.range'_succ, List.map_cons, rates_cons_cons, Nat.add_sub_cancel] at ih ⊢
      rw [ih]

end

/-- The buckets that a report on a window tells about, out of a history of so many. -/
def Window.buckets (history : Nat) (w : Window) : List Nat :=
  List.range' (clamp 0 history w.first).toNat
    (clamp 0 history w.last - clamp 0 history w.first - 1).toNat

namespace Store

variable {α : Type}

/-- The queries of bucket `j`: those recorded since the last reset that exactly `j` rotations
followed. -/
def bucket (j : Nat) (es : List (Event α)) : List (Query α) := recorded (· == j) es

/-- What is older than a rotation is what is older than the one before, and then the bucket between
them. -/
theorem older_eq_append_bucket (j : Nat) (es : List (Event α)) :
    older j es = older (j + 1) es ++ bucket j es := by
  induction es using List.reverseRecOn generalizing j with
  | nil => rfl
  | append_singleton es e ih =>
    cases e with
    | record q =>
      rw [older_record, older_record, bucket, recorded_record, if_neg (Nat.succ_ne_zero j),
        List.append_nil, ← List.append_assoc, ← bucket, ← ih]
      cases j <;> rfl
    | rotate =>
      rw [older_rotate, older_rotate, bucket, recorded_rotate]
      cases j with
      | zero => simp [recorded]
      | succ j => simpa [bucket] using ih j
    | reset => simp [bucket]

/-- No more queries are picked out than were recorded. -/
theorem length_recorded_le (p : Nat → Bool) (es : List (Event α)) :
    (recorded p es).length ≤ records es := by
  induction es using List.reverseRecOn generalizing p with
  | nil => rfl
  | append_singleton es e ih =>
    cases e with
    | record q =>
      have hr : records (es ++ [.record q]) = records es + 1 := by simp [records, Event.isRecord]
      have := ih p
      rw [recorded_record, hr, List.length_append]
      split <;> simp <;> omega
    | rotate =>
      have hr : records (es ++ [.rotate]) = records es := by simp [records, Event.isRecord]
      rw [recorded_rotate, hr]
      exact ih _
    | reset => simp

variable [Scalar α]

/-- What a metric gained in bucket `j`. -/
def gain (k : Metric) (j : Nat) (es : List (Event α)) : α :=
  tally k (older j es) - tally k (older (j + 1) es)

/-- Where counting is exact, a metric gains in a bucket what the queries of the bucket count for
it. -/
theorem gain_eq_ofCount {bound : Nat} {ofCount : Nat → α} (hc : Scalar.Counts α bound ofCount)
    {k : Metric} (hk : k ≠ .timeSum) (j : Nat) {es : List (Event α)} (h : records es < bound) :
    gain k j es = ofCount (Query.counted k (bucket j es)) := by
  have hlen : (older (j + 1) es ++ bucket j es).length < bound := by
    rw [← older_eq_append_bucket]
    exact Nat.lt_of_le_of_lt (length_recorded_le _ es) h
  rw [gain, older_eq_append_bucket j es]
  exact tally_append_sub hc hk hlen

/-- Without rounding, the durations of a bucket are gained. -/
theorem gain_timeSum (j : Nat) (es : List (Event Rat)) :
    gain .timeSum j es = (Query.durations (bucket j es)).sum := by
  rw [gain, older_eq_append_bucket j es]
  exact tally_timeSum_append_sub _ _

/-! ## Reports on a store -/

namespace Recalls

variable {s : Store α} {es : List (Event α)}

/-- All series of a store cover its whole history. -/
theorem limit_view (h : Recalls s es) : s.view.limit = s.history := by
  have hlen : ∀ k, (s.series.get k).length = s.history := fun k => by simp [h.series]
  have hall : s.series.toList.map List.length = List.replicate 7 s.history := by
    change [(s.series.get .requests).length, (s.series.get .lists).length,
      (s.series.get .safeBrowsing).length, (s.series.get .safeSearch).length,
      (s.series.get .parental).length, (s.series.get .timeSum).length,
      (s.series.get .timeCount).length] = _
    simp only [hlen]
    rfl
  simp [View.limit, view, hall, List.replicate]

/-- A report lists what every metric gained in each bucket of the window. -/
theorem report_view (h : Recalls s es) (w : Window) :
    s.view.report w =
      { queries := (w.buckets s.history).map fun j => gain .requests j es
        blocked := (w.buckets s.history).map fun j => gain .lists j es
        safeBrowsing := (w.buckets s.history).map fun j => gain .safeBrowsing j es
        safeSearch := (w.buckets s.history).map fun j => gain .safeSearch j es
        parental := (w.buckets s.history).map fun j => gain .parental j es
        averageTime := (w.buckets s.history).map fun j =>
          averageMillis (gain .timeSum j es) (gain .timeCount j es) } := by
  obtain ⟨hf, hf', hl, hl'⟩ := w.within_bounds s.history
  have hmax : max (s.history : Int) 0 = s.history := by omega
  have hrates : ∀ k, rates (slice (clamp 0 s.history w.first).toNat
      (clamp 0 s.history w.last).toNat (s.series.get k)) =
        (w.buckets s.history).map fun j => gain k j es := by
    intro k
    simp only [Window.within, hmax] at hf hf' hl hl'
    rw [h.series, slice_map_range _ (by omega), rates_map_range', Window.buckets]
    congr 2
    omega
  have hspan : s.view.span w = ⟨clamp 0 s.history w.first, clamp 0 s.history w.last⟩ := by
    simp only [View.span, h.limit_view]
    simp only [view, Window.within, hmax] at hl' ⊢
    rw [min_eq_left hl']
  simp only [View.report, hspan]
  split
  case isTrue hle =>
    have hempty : w.buckets s.history = [] := by
      rw [Window.buckets, List.range'_eq_nil_iff]
      omega
    rw [hempty]
    rfl
  case isFalse =>
    simp only [view]
    congr 1
    · exact hrates .requests
    · exact hrates .lists
    · exact hrates .safeBrowsing
    · exact hrates .safeSearch
    · exact hrates .parental
    · rw [show s.series.timeSum = s.series.get .timeSum from rfl,
        show s.series.timeCount = s.series.get .timeCount from rfl, hrates, hrates,
        List.zipWith_map, List.zipWith_self]

/-- A report has a figure for every two neighbours of its window. -/
theorem length_report (h : Recalls s es) (w : Window) {p : Text × List α}
    (hp : p ∈ (s.view.report w).named) :
    p.2.length = (clamp 0 s.history w.last - clamp 0 s.history w.first - 1).toNat := by
  simp only [h.report_view, Figures.named, List.mem_cons, List.not_mem_nil, or_false] at hp
  rcases hp with rfl | rfl | rfl | rfl | rfl | rfl <;> simp [Window.buckets]

end Recalls

/-- No run changes how many buckets a store keeps. -/
theorem history_run_create (requested : Nat) (es : List (Event α)) :
    ((create requested).run es).history = historyFor requested := by
  rw [history_run, history_create]

/-- The mean of a bucket is asked of the number of its durations. -/
theorem averageMillis_gain {bound : Nat} {ofCount : Nat → α}
    (hc : Scalar.Counts α bound ofCount) (j : Nat) {es : List (Event α)} (h : records es < bound) :
    averageMillis (gain .timeSum j es) (gain .timeCount j es) =
      if (Query.durations (bucket j es)).isEmpty then 0
      else gain .timeSum j es / ofCount (Query.durations (bucket j es)).length *
        Scalar.thousand := by
  have hlt : Query.counted .timeCount (bucket j es) < bound :=
    Nat.lt_of_le_of_lt (Query.counted_le_length _ _)
      (Nat.lt_of_le_of_lt (length_recorded_le _ es) h)
  rw [averageMillis, gain_eq_ofCount hc (by decide) j h, hc.isZero hlt, Query.counted_timeCount]
  cases Query.durations (bucket j es) <;> rfl

/-- Where counting is exact, a report lists plain counts. -/
theorem report_run {bound : Nat} {ofCount : Nat → α} (hc : Scalar.Counts α bound ofCount)
    (requested : Nat) {es : List (Event α)} (h : records es < bound) (w : Window) :
    ((create requested).run es).view.report w =
      { queries := (w.buckets (historyFor requested)).map fun j => ofCount (bucket j es).length
        blocked := (w.buckets (historyFor requested)).map fun j =>
          ofCount (Query.counted .lists (bucket j es))
        safeBrowsing := (w.buckets (historyFor requested)).map fun j =>
          ofCount (Query.counted .safeBrowsing (bucket j es))
        safeSearch := (w.buckets (historyFor requested)).map fun j =>
          ofCount (Query.counted .safeSearch (bucket j es))
        parental := (w.buckets (historyFor requested)).map fun j =>
          ofCount (Query.counted .parental (bucket j es))
        averageTime := (w.buckets (historyFor requested)).map fun j =>
          if (Query.durations (bucket j es)).isEmpty then 0
          else gain .timeSum j es / ofCount (Query.durations (bucket j es)).length *
            Scalar.thousand } := by
  have hgain : ∀ k ≠ Metric.timeSum, ∀ j,
      gain k j es = ofCount (Query.counted k (bucket j es)) :=
    fun k hk j => gain_eq_ofCount hc hk j h
  rw [(recalls_run requested es).report_view, history_run_create]
  simp only [averageMillis_gain hc _ h, hgain .requests (by decide), hgain .lists (by decide),
    hgain .safeBrowsing (by decide), hgain .safeSearch (by decide), hgain .parental (by decide),
    Query.counted_requests]

/-- A report on a window tells, for each bucket in it, how many queries were recorded in the bucket,
how many of them in each category, and the mean of their durations in milliseconds.  Doubles count
the queries exactly while there are fewer than `2 ^ 53` of them; the mean is exact where the sum of
the durations is not rounded. -/
theorem report_tells_buckets (requested : Nat) (w : Window) :
    let first := clamp 0 (historyFor requested) w.first
    let last := clamp 0 (historyFor requested) w.last
    let buckets := List.range' first.toNat (last - first - 1).toNat
    (∀ es : List (Event Float), records es < 2 ^ 53 →
      ((create requested).run es).view.report w =
        { queries := buckets.map fun j => Float.ofNat (bucket j es).length
          blocked := buckets.map fun j =>
            Float.ofNat ((bucket j es).countP (·.category = .lists))
          safeBrowsing := buckets.map fun j =>
            Float.ofNat ((bucket j es).countP (·.category = .safeBrowsing))
          safeSearch := buckets.map fun j =>
            Float.ofNat ((bucket j es).countP (·.category = .safeSearch))
          parental := buckets.map fun j =>
            Float.ofNat ((bucket j es).countP (·.category = .parental))
          averageTime := buckets.map fun j =>
            let durations := (bucket j es).filterMap (·.elapsed)
            if durations.isEmpty then 0
            else gain .timeSum j es / Float.ofNat durations.length * 1000 }) ∧
    ∀ es : List (Event Rat),
      ((create requested).run es).view.report w =
        { queries := buckets.map fun j => ((bucket j es).length : Rat)
          blocked := buckets.map fun j => ((bucket j es).countP (·.category = .lists) : Rat)
          safeBrowsing := buckets.map fun j =>
            ((bucket j es).countP (·.category = .safeBrowsing) : Rat)
          safeSearch := buckets.map fun j =>
            ((bucket j es).countP (·.category = .safeSearch) : Rat)
          parental := buckets.map fun j => ((bucket j es).countP (·.category = .parental) : Rat)
          averageTime := buckets.map fun j =>
            let durations := (bucket j es).filterMap (·.elapsed)
            if durations.isEmpty then 0 else 1000 * (durations.sum / durations.length) } := by
  intro first last buckets
  refine ⟨fun es h => report_run Scalar.counts_float requested h w, fun es => ?_⟩
  rw [report_run (Scalar.counts_rat _) requested (Nat.lt_succ_self (records es)) w]
  congr 1
  apply List.map_congr_left
  intro j _
  rw [gain_timeSum]
  change (if _ then (0 : Rat) else _ / _ * 1000) = if _ then (0 : Rat) else 1000 * (_ / _)
  rw [mul_comm]
  rfl

/-- Two queries in the older bucket, one in the newer. -/
theorem report_tells_two_buckets :
    let es : List (Event Float) :=
      [.record ⟨.lists, none⟩, .record ⟨.unfiltered, some 2⟩, .rotate, .record ⟨.parental, none⟩]
    let report := ((create 4).run es).view.report ⟨0, 3⟩
    records es < 2 ^ 53 ∧ report.queries = [1, 2] ∧ report.blocked = [0, 1] := by
  intro es report
  have h : records es < 2 ^ 53 := by decide
  have hr := (report_tells_buckets 4 ⟨0, 3⟩).1 es h
  exact ⟨h, congrArg Figures.queries hr, congrArg Figures.blocked hr⟩

end Store

end QueryStats
