import QueryStats.Proofs.Finite
import QueryStats.Proofs.Arrival
import QueryStats.Proofs.Figures

/-!
# Durations add up to finite numbers

Durations are kept out of the sums one by one, if they are infinite or not a number.  That alone
does not keep the sums finite: enough durations near the largest double exceed it.  Durations of no
more than `1e288` seconds can be added up as long as one likes.
-/

namespace QueryStats

open Double

namespace Double

open Float.Model UnpackedFloat

/-! ## Durations below a bound -/

/-- The bits of the bound, which is computed from its decimal only once. -/
theorem toBits_bound : (1e288 : Float).toBits = 0x7bba44df832b8d46 := by decide +kernel

/-- The bound on durations, as mantissa and exponent. -/
theorem unpack_bound : (1e288 : Float).toModel.unpack =
    .finite .positive 7394076163542342 904 (by decide) := by
  rw [← Float.ofBits_toBits 1e288, toBits_bound]
  rfl

/-- A duration up to the bound is below a power of two that leaves room for every sum. -/
theorem valueOf_le_of_le_bound {x : Float} (hx : Canonical x.toModel.unpack) (hle : x ≤ 1e288) :
    valueOf x ≤ 2 ^ (957 : ℤ) := by
  rw [valueOf]
  rw [le_iff, unpack_bound] at hle
  cases hu : x.toModel.unpack with
  | infinity | notANumber | zero => simp only [value]; positivity
  | finite s m e h =>
    rw [hu] at hx hle
    cases s with
    | negative =>
      have hpos : (0 : ℚ) < m * 2 ^ e := by positivity
      have hbound : (0 : ℚ) < 2 ^ (957 : ℤ) := by positivity
      rw [value_negative]
      exact (neg_nonpos.2 hpos.le).trans hbound.le
    | positive =>
      have he : e ≤ 904 := by
        by_contra hgt
        have hc : compare e 904 = .gt := Int.compare_eq_gt.2 (by omega)
        simp [UnpackedFloat.le, UnpackedFloat.compare, hc] at hle
      exact (le_abs_self _).trans (abs_value_finite_lt hx.1 he).le

/-! ## Seconds from milliseconds -/

section

variable {ms : Float}

/-- A duration in seconds is the thousandth of its milliseconds, rounded. -/
theorem rounds_seconds (h : ms.isFinite) :
    Rounds (valueOf ms / 1000) (UnpackedFloat.div Format.binary64 ms.toModel.unpack
      (1000 : Float).toModel.unpack) := by
  have hne : value (1000 : Float).toModel.unpack ≠ 0 := by
    change valueOf 1000 ≠ 0
    rw [valueOf_thousand]
    norm_num
  have hr := rounds_div (canonical_unpack h) within_thousand.canonical hne
  change Rounds (valueOf ms / valueOf 1000) _ at hr
  rwa [valueOf_thousand] at hr

/-- The thousandth of a double is too small to be rounded up to an infinity. -/
theorem abs_seconds_le (h : ms.isFinite) :
    |valueOf ms / 1000| ≤ 2 ^ (1023 : ℤ) + 2 ^ (1023 - 53 : ℤ) := by
  have hpos : (0 : ℚ) < 2 ^ (1023 : ℤ) := by positivity
  have hpos' : (0 : ℚ) < 2 ^ (1023 - 53 : ℤ) := by positivity
  have hthousand : |(1000 : ℚ)| = 1000 := abs_of_pos (by norm_num)
  have hlt : |valueOf ms| < 2 ^ (1023 : ℤ) * 2 := by
    rw [← zpow_add_one₀ (by norm_num)]
    exact abs_value_unpack_lt h
  rw [abs_div, hthousand, div_le_iff₀ (by norm_num)]
  generalize (2 : ℚ) ^ (1023 : ℤ) = b at *
  generalize (2 : ℚ) ^ (1023 - 53 : ℤ) = c at *
  linarith

/-- The division by a thousand, on unpacked doubles. -/
theorem unpack_seconds (h : ms.isFinite) :
    (ms / 1000).toModel.unpack = UnpackedFloat.div Format.binary64 ms.toModel.unpack
      (1000 : Float).toModel.unpack :=
  (rounds_seconds h).toModel_unpack (by decide) (by decide) (abs_seconds_le h)

/-- A duration in seconds is finite if it is finite in milliseconds. -/
theorem canonical_seconds (h : ms.isFinite) : Canonical (ms / 1000).toModel.unpack := by
  rw [unpack_seconds h]
  exact (rounds_seconds h).canonical

/-- Rounding a magnitude with a plus gives nothing below zero. -/
theorem value_roundWithAccuracy_nonneg (m : ℕ) (e : ℤ) (acc : Accuracy) :
    0 ≤ value (roundWithAccuracy Format.binary64 .positive m e acc) := by
  simp only [roundWithAccuracy]
  split
  case isTrue => exact le_refl _
  case isFalse => simp only [value, Sign.apply]; positivity

/-- A duration that is not negative in milliseconds is not negative in seconds. -/
theorem valueOf_seconds_nonneg (h : ms.isFinite) (hms : ¬ms < 0) : 0 ≤ valueOf (ms / 1000) := by
  rw [valueOf, unpack_seconds h, unpack_thousand]
  cases hu : ms.toModel.unpack with
  | infinity | notANumber | zero => exact le_refl _
  | finite s m e hm =>
    cases s with
    | negative =>
      have hlt : ms < 0 := by
        rw [lt_iff, hu]
        rfl
      exact absurd hlt hms
    | positive => exact value_roundWithAccuracy_nonneg _ _ _

end

end Double

namespace Entry

/-- Milliseconds are taken exactly if they are finite and not negative. -/
theorem secondsOfMillis?_eq_some_iff {ms x : Float} :
    secondsOfMillis? ms = some x ↔ ms.isFinite ∧ ¬ms < 0 ∧ x = ms / 1000 := by
  rw [secondsOfMillis?]
  split
  case isTrue h =>
    rw [Bool.and_eq_true, Bool.not_eq_true', decide_eq_false_iff_not] at h
    rw [Option.some.injEq, eq_comm]
    exact ⟨fun hx => ⟨h.1, h.2, hx⟩, fun hx => hx.2.2⟩
  case isFalse h =>
    rw [Bool.and_eq_true, Bool.not_eq_true', decide_eq_false_iff_not] at h
    exact iff_of_false nofun fun hx => h ⟨hx.1, hx.2.1⟩

/-- Of a duration that is accepted only the size is in doubt. -/
theorem within_of_secondsOfMillis? {ms x : Float} (h : secondsOfMillis? ms = some x)
    (hle : x ≤ 1e288) : Within 957 x := by
  obtain ⟨hfinite, hms, rfl⟩ := secondsOfMillis?_eq_some_iff.1 h
  have hcanonical := canonical_seconds hfinite
  refine ⟨hcanonical, ?_⟩
  rw [abs_of_nonneg (valueOf_seconds_nonneg hfinite hms)]
  exact valueOf_le_of_le_bound hcanonical hle

/-- An entry's duration up to the bound is below the power of two. -/
theorem within_of_elapsed? {e : Entry} {x : Float} (h : e.elapsed? = some x) (hle : x ≤ 1e288) :
    Within 957 x := by
  rw [elapsed?] at h
  split at h
  · exact within_of_secondsOfMillis? h hle
  · obtain ⟨d, -, hd⟩ := Option.bind_eq_some_iff.1 h
    exact within_of_secondsOfMillis? hd hle
  · cases h

end Entry

namespace Store

/-! ## Totals -/

/-- However many queries are counted, the count is a whole number of at most `2 ^ 53`, where
rounding stops it. -/
theorem wholeWithin_tally {k : Metric} (hk : k ≠ .timeSum) (qs : List (Query Float)) :
    WholeWithin 53 (tally k qs) := by
  induction qs using List.reverseRecOn with
  | nil => exact wholeWithin_zero 53
  | append_singleton qs q ih =>
    rw [tally_concat, Query.count_eq q hk]
    split
    · exact ih.add wholeWithin_one (by decide) (by decide)
    · exact ih

/-- What is added up stays below `2 ^ 53` times the longest duration. -/
theorem within_tally {qs : List (Query Float)} (h : ∀ x ∈ Query.durations qs, Within 957 x) :
    Within 1010 (tally .timeSum qs) := by
  -- The bound does not grow with the queries: what is added is `2 ^ 53` times smaller.
  induction qs using List.reverseRecOn with
  | nil => exact (wholeWithin_zero 1010).toWithin
  | append_singleton qs q ih =>
    rw [Query.durations, List.filterMap_append, List.forall_mem_append] at h
    rw [tally_concat]
    cases hq : q.elapsed with
    | none =>
      rw [Query.count, hq]
      exact ih h.1
    | some x =>
      rw [Query.count, hq]
      exact (ih h.1).add (h.2 x (by simp [hq])) (by decide) (by decide)

/-- What is older than a rotation has been recorded. -/
theorem older_subset (j : Nat) (es : List (Event Float)) : older j es ⊆ older 0 es := by
  intro q hq
  obtain ⟨r, hr, rfl⟩ := List.mem_map.1 hq
  exact List.mem_map_of_mem (List.mem_filter.2 ⟨(List.mem_filter.1 hr).1, by simp⟩)

section

variable {es : List (Event Float)}

/-- The sum of durations stays below a power of two, however many are added. -/
theorem within_tally_older (h : ∀ q ∈ older 0 es, ∀ x, q.elapsed = some x → Within 957 x)
    (j : Nat) : Within 1010 (tally .timeSum (older j es)) := by
  refine within_tally fun x hx => ?_
  obtain ⟨q, hq, hqx⟩ := List.mem_filterMap.1 hx
  exact h q (older_subset j es hq) x hqx

/-! ## Reports and summaries -/

/-- What a bucket gains of a count is a whole number of at most `2 ^ 54`. -/
theorem wholeWithin_gain {k : Metric} (hk : k ≠ .timeSum) (j : Nat) :
    WholeWithin 54 (gain k j es) :=
  (wholeWithin_tally hk _).sub (wholeWithin_tally hk _) (by decide) (by decide)

/-- A mean is no longer than what it is a mean of, and has ten bits more in milliseconds. -/
theorem within_averageMillis {sum count : Float} (hs : Within 1011 sum)
    (hc : WholeWithin 54 count) : Within 1021 (averageMillis sum count) := by
  rw [averageMillis]
  split
  case isTrue => exact (wholeWithin_zero 1021).toWithin
  case isFalse h =>
    have hne : valueOf count ≠ 0 := fun hzero => h (beq_zero_of_valueOf hc.toWithin hzero)
    exact (hs.div hc hne (by decide) (by decide)).mul within_thousand (by decide) (by decide)

/-- A mean in seconds is no larger than the sum can be. -/
theorem within_averageSeconds {sum count : Float} (hs : Within 1010 sum)
    (hc : WholeWithin 53 count) : Within 1010 (averageSeconds sum count) := by
  rw [averageSeconds]
  split
  case isTrue h =>
    have hne : valueOf count ≠ 0 := fun hzero =>
      not_zero_lt_of_valueOf hc.toWithin hzero (of_decide_eq_true h)
    exact hs.div hc hne (by decide) (by decide)
  case isFalse => exact (wholeWithin_zero 1010).toWithin

variable {s : Store Float}

/-- All figures of a report are finite. -/
theorem Recalls.within_report (hr : Recalls s es)
    (h : ∀ q ∈ older 0 es, ∀ x, q.elapsed = some x → Within 957 x) (w : Window) :
    ∀ m ∈ (s.view.report w).named, ∀ x ∈ m.2, Within 1021 x := by
  have hgain : ∀ k ≠ Metric.timeSum, ∀ x ∈ (w.buckets s.history).map fun j => gain k j es,
      Within 1021 x := fun k hk =>
    List.forall_mem_map.2 fun j _ => (wholeWithin_gain hk j).toWithin.mono (by decide)
  have haverage : ∀ x ∈ (w.buckets s.history).map fun j =>
      averageMillis (gain .timeSum j es) (gain .timeCount j es), Within 1021 x := by
    refine List.forall_mem_map.2 fun j _ => within_averageMillis ?_ (wholeWithin_gain (by decide) j)
    exact (within_tally_older h j).sub (within_tally_older h (j + 1)) (by decide) (by decide)
  rw [hr.report_view]
  simp only [Figures.named, List.forall_mem_cons]
  exact ⟨hgain .requests (by decide), hgain .lists (by decide), hgain .safeBrowsing (by decide),
    hgain .safeSearch (by decide), hgain .parental (by decide), haverage, List.forall_mem_nil _⟩

/-- All figures of a summary are finite. -/
theorem Recalls.within_summary (hr : Recalls s es)
    (h : ∀ q ∈ older 0 es, ∀ x, q.elapsed = some x → Within 957 x) :
    ∀ m ∈ s.totals.summary.named, Within 1010 m.2 := by
  have hcount : ∀ k ≠ Metric.timeSum, WholeWithin 53 (s.totals.get k) := by
    intro k hk
    rw [hr.totals]
    exact wholeWithin_tally hk _
  have hwithin : ∀ k ≠ Metric.timeSum, Within 1010 (s.totals.get k) :=
    fun k hk => (hcount k hk).toWithin.mono (by decide)
  have hsum : Within 1010 (s.totals.get .timeSum) := by
    rw [hr.totals]
    exact within_tally_older h 0
  simp only [Figures.named, List.forall_mem_cons]
  exact ⟨hwithin .requests (by decide), hwithin .lists (by decide),
    hwithin .safeBrowsing (by decide), hwithin .safeSearch (by decide),
    hwithin .parental (by decide), within_averageSeconds hsum (hcount .timeCount (by decide)),
    List.forall_mem_nil _⟩

end

end Store

namespace Statistics

/-- Durations up to the bound are recorded below the power of two. -/
theorem within_of_older {es : List Event}
    (h : ∀ e ∈ ingested es, ∀ x, e.elapsed? = some x → x ≤ 1e288) :
    ∀ q ∈ Store.older 0 (es.filterMap Event.toStore?), ∀ x, q.elapsed = some x → Within 957 x := by
  rw [older_toStore]
  refine List.forall_mem_map.2 fun e he x hx => ?_
  exact Entry.within_of_elapsed? hx (h e he x hx)

/-- As long as no duration is longer than `1e288` seconds, the sums of durations are finite in every
bucket, and so are all figures of a summary and of a report on any window, however many entries were
taken in.  Their texts are then objects of the interchange format. -/
theorem durations_stay_finite (hash : Text → UInt64) (shards history : Nat) {es : List Event}
    (h : ∀ e ∈ ingested es, ∀ x, e.elapsed? = some x → x ≤ 1e288) :
    let s := ((create hash shards history).run es).store
    (∀ x ∈ s.view.series.timeSum, x.isFinite) ∧ s.totals.timeSum.isFinite ∧
    (∀ m ∈ s.totals.summary.named, m.2.isFinite) ∧
    (∃ ms, Json.Spells (Report.ofSummary s.totals.summary) (.element (.object ms)) ∧
      ms.map (·.1) = s.totals.summary.named.map (·.1)) ∧
    ∀ w : Window,
      (∀ m ∈ (s.view.report w).named, ∀ x ∈ m.2, x.isFinite) ∧
      ∃ ms, Json.Spells (Report.ofSeries (s.view.report w)) (.element (.object ms)) ∧
        ms.map (·.1) = (s.view.report w).named.map (·.1) := by
  intro s
  have hr : Store.Recalls s (es.filterMap Event.toStore?) := recalls_store hash shards history es
  have hq := within_of_older h
  have hslot := Store.within_tally_older hq
  have hsummary : ∀ m ∈ s.totals.summary.named, m.2.isFinite :=
    fun m hm => (hr.within_summary hq m hm).isFinite
  have hreport : ∀ w : Window, ∀ m ∈ (s.view.report w).named, ∀ x ∈ m.2, x.isFinite :=
    fun w m hm x hx => (hr.within_report hq w m hm x hx).isFinite
  refine ⟨?_, ?_, hsummary, Report.exists_spells_ofSummary hsummary,
    fun w => ⟨hreport w, Report.exists_spells_ofSeries (hreport w)⟩⟩
  · change ∀ x ∈ s.series.get .timeSum, _
    rw [hr.series]
    exact List.forall_mem_map.2 fun j _ => (hslot j).isFinite
  · change (s.totals.get .timeSum).isFinite
    rw [hr.totals]
    exact (hslot 0).isFinite

/-- Two queries that took `1e290` milliseconds each. -/
theorem durations_stay_finite_of_long_queries :
    let e : Entry := .object [(utf8 "elapsedMs", .number 1e290)]
    let es : List Event := [.ingest e, .rotate, .ingest e]
    let s := ((create (fun _ => 0) 1 2).run es).store
    (∀ e ∈ ingested es, ∀ x, e.elapsed? = some x → x ≤ 1e288) ∧ s.totals.timeSum.isFinite := by
  intro e es s
  have hlong : e.elapsed?.all (· ≤ 1e288) := by decide +kernel
  have h : ∀ e ∈ ingested es, ∀ x, e.elapsed? = some x → x ≤ 1e288 := by
    intro e' he' x hx
    have hmem : e' ∈ [e, e] := he'
    have he : e' = e := by simpa using hmem
    rw [he] at hx
    rw [hx] at hlong
    exact of_decide_eq_true hlong
  exact ⟨h, (durations_stay_finite (fun _ => 0) 1 2 h).2.1⟩

/-- Longer durations are accepted too, and four of them are enough for an infinite average. -/
theorem averages_overflow :
    let e : Entry := .object [(utf8 "elapsedMs", .number (Float.ofBits 0x7fefffffffffffff))]
    let es : List Event := [.ingest e, .ingest e, .ingest e, .rotate, .ingest e]
    let s := ((create (fun _ => 0) 1 2).run es).store
    e.elapsed?.all Float.isFinite ∧ (s.view.report ⟨0, 2⟩).averageTime.any Float.isInf := by
  decide +kernel

end Statistics

end QueryStats
