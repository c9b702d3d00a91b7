import QueryStats.Proofs.Counting
import QueryStats.Proofs.Tally
import QueryStats.Statistics

/-!
# Both sides of the statistics agree

Every entry is counted by what it says, in whole numbers spread over shards, and in the totals, in
doubles kept by bucket.  Neither side looks at the other, yet their numbers never differ.
-/

namespace QueryStats

namespace Statistics

/-- What can happen to statistics. -/
inductive Event where
  | ingest (e : Entry)
  | rotate
  | decodeError

def apply (s : Statistics) : Event → Statistics
  | .ingest e => s.ingest e
  | .rotate => { s with store := s.store.rotate }
  | .decodeError => { s with counter := s.counter.addDecodeError }

def run (s : Statistics) (es : List Event) : Statistics := es.foldl apply s

/-! ## Each side on its own -/

namespace Event

def entry? : Event → Option Entry
  | .ingest e => some e
  | _ => none

/-- What an event is to the counter. -/
def toCounter? : Event → Option Counter.Event
  | .ingest e => some (.add e)
  | .rotate => none
  | .decodeError => some .decodeError

/-- What an event is to the store. -/
def toStore? : Event → Option (Store.Event Float)
  | .ingest e => some (.record e.query)
  | .rotate => some .rotate
  | .decodeError => none

end Event

/-- The entries of a run. -/
def ingested (es : List Event) : List Entry := es.filterMap Event.entry?

/-- The counter sees of a run what is meant for it, and goes through that by itself. -/
theorem counter_run (s : Statistics) (es : List Event) :
    (s.run es).counter = s.counter.run (es.filterMap Event.toCounter?) := by
  induction es generalizing s with
  | nil => rfl
  | cons e es ih => cases e <;> exact ih _

/-- So does the store. -/
theorem store_run (s : Statistics) (es : List Event) :
    (s.run es).store = s.store.run (es.filterMap Event.toStore?) := by
  induction es generalizing s with
  | nil => rfl
  | cons e es ih => cases e <;> exact ih _

/-- What the counter has added of a run are the entries that the run takes in. -/
theorem added_toCounter (es : List Event) :
    Counter.added (es.filterMap Event.toCounter?) = ingested es := by
  induction es using List.reverseRecOn with
  | nil => rfl
  | append_singleton es e ih =>
    rw [List.filterMap_append, ingested, List.filterMap_append, ← ingested, ← ih]
    cases e with
    | ingest e => exact Counter.added_add _ e
    | rotate =>
      change Counter.added (_ ++ []) = _ ++ []
      rw [List.append_nil, List.append_nil]
    | decodeError =>
      change Counter.added (_ ++ [.decodeError]) = _ ++ []
      rw [List.append_nil, Counter.added_decodeError]

/-- What the store has recorded of a run are the queries of the same entries. -/
theorem older_toStore (es : List Event) :
    Store.older 0 (es.filterMap Event.toStore?) = (ingested es).map Entry.query := by
  induction es using List.reverseRecOn with
  | nil => rfl
  | append_singleton es e ih =>
    rw [List.filterMap_append, ingested, List.filterMap_append, ← ingested, List.map_append, ← ih]
    cases e with
    | ingest e => exact Store.older_record 0 _ e.query
    | rotate =>
      change Store.older 0 (_ ++ [.rotate]) = _ ++ []
      rw [List.append_nil, Store.older_rotate]
    | decodeError =>
      change Store.older 0 (_ ++ []) = _ ++ []
      rw [List.append_nil, List.append_nil]

/-! ## The same numbers -/

section

variable (hash : Text → UInt64) (shards history : Nat) {es : List Event}

/-- Below `2 ^ 53` entries every total of the store but the sum of durations is exactly the number
of entries that count for it. -/
theorem totals_run (h : (ingested es).length < 2 ^ 53) {k : Metric} (hk : k ≠ .timeSum) :
    ((create hash shards history).run es).store.totals.get k =
      Float.ofNat (Query.counted k ((ingested es).map Entry.query)) := by
  have hlen : ((ingested es).map Entry.query).length < 2 ^ 53 := by
    rw [List.length_map]
    exact h
  rw [store_run]
  have hr := Store.recalls_run (α := Float) history (es.filterMap Event.toStore?)
  rw [← Store.tally_eq_ofCount Scalar.counts_float hk hlen, ← older_toStore]
  exact hr.totals k

/-- The counter's own number of entries is the number of entries taken in, modulo `2 ^ 64`. -/
theorem entries_run :
    ((create hash shards history).run es).counter.entries = UInt64.ofNat (ingested es).length := by
  rw [counter_run, ← added_toCounter]
  exact (Counter.recalls_run hash shards _).entries

/-- How often a reason was counted. -/
theorem reasons_run {reason : Text} (hne : reason ≠ []) :
    ((((create hash shards history).run es).counter.counts .reasons).merged[reason]?).getD 0 =
      UInt64.ofNat ((ingested es).countP (·.reason = reason)) := by
  have hm := Counter.getElem?_merged_run hash shards (es.filterMap Event.toCounter?) .reasons reason
  rw [added_toCounter] at hm
  rw [counter_run]
  change (((((Counter.create hash shards).run (es.filterMap Event.toCounter?)).counts
    .reasons).merged)[reason]?).getD 0 = _
  rw [hm]
  split
  case isTrue => rfl
  case isFalse hno =>
    have hzero : (ingested es).countP (·.reason = reason) = 0 := by
      rw [List.countP_eq_zero]
      intro e he heq
      exact hno ⟨hne, List.mem_map.2 ⟨e, he, of_decide_eq_true heq⟩⟩
    rw [hzero]
    rfl

/-- The total of a filter is the count of the reason that names it. -/
theorem filtered_run (h : (ingested es).length < 2 ^ 53) {k : Metric} {c : Category} {reason : Text}
    (hk : ∀ q : Query Float, q.counts k = decide (q.category = c)) (hr : c.reason? = some reason) :
    ((create hash shards history).run es).store.totals.get k =
      (((((create hash shards history).run es).counter.counts .reasons).merged[reason]?).getD
        0).toFloat := by
  have hc : c ≠ .unfiltered := by
    rintro rfl
    exact Option.some_ne_none _ hr.symm
  have hne : reason ≠ [] := by
    rintro rfl
    exact hc ((Category.ofReason_eq_iff hc).2 hr).symm
  have htime : k ≠ .timeSum := by
    rintro rfl
    exact Bool.noConfusion ((hk ⟨c, none⟩).trans (decide_eq_true rfl))
  have hcount : Query.counted k ((ingested es).map Entry.query) =
      (ingested es).countP (·.reason = reason) := by
    rw [Query.counted, List.countP_map]
    congr 1
    funext e
    rw [Function.comp_apply, hk]
    refine decide_eq_decide.2 ((Category.ofReason_eq_iff hc).trans ?_)
    rw [hr, Option.some_inj, eq_comm]
  have hlt : (ingested es).countP (·.reason = reason) < 2 ^ 53 :=
    Nat.lt_of_le_of_lt List.countP_le_length h
  rw [totals_run hash shards history h htime, reasons_run hash shards history hne, hcount]
  exact Double.ofNat_eq_toFloat hlt

/-- The totals and the counts of entries never differ: both sides know as many entries, and as many
that each filter decided.  The durations that were summed up are those that entries have. -/
theorem totals_eq_counts (h : (ingested es).length < 2 ^ 53) :
    let s := (create hash shards history).run es
    let count (reason : Text) := ((s.counter.counts .reasons).merged[reason]?.getD 0).toFloat
    s.store.totals.requests = s.counter.entries.toFloat ∧
    s.store.totals.lists = count (utf8 "FilteredBlackList") ∧
    s.store.totals.safeBrowsing = count (utf8 "FilteredSafeBrowsing") ∧
    s.store.totals.safeSearch = count (utf8 "FilteredSafeSearch") ∧
    s.store.totals.parental = count (utf8 "FilteredParental") ∧
    s.store.totals.timeCount = Float.ofNat ((ingested es).countP (·.elapsed?.isSome)) := by
  intro s count
  refine ⟨?_, ?_, ?_, ?_, ?_, ?_⟩
  · have hr := totals_run hash shards history h (k := .requests) (by decide)
    rw [Query.counted_requests, List.length_map, Double.ofNat_eq_toFloat h] at hr
    rw [entries_run]
    exact hr
  · exact filtered_run hash shards history h (k := .lists) (c := .lists) (fun _ => rfl) rfl
  · exact filtered_run hash shards history h (k := .safeBrowsing) (c := .safeBrowsing)
      (fun _ => rfl) rfl
  · exact filtered_run hash shards history h (k := .safeSearch) (c := .safeSearch)
      (fun _ => rfl) rfl
  · exact filtered_run hash shards history h (k := .parental) (c := .parental) (fun _ => rfl) rfl
  · have hr := totals_run hash shards history h (k := .timeCount) (by decide)
    rw [Query.counted, List.countP_map] at hr
    exact hr

/-- A blocked entry with a duration, and behind a rotation a line that cannot be decoded and an
entry without members. -/
theorem totals_eq_counts_after_blocked :
    let blocked : Entry :=
      .object [(utf8 "reason", .text (utf8 "FilteredBlackList")), (utf8 "elapsedMs", .number 12)]
    let es : List Event := [.ingest blocked, .rotate, .decodeError, .ingest .absent]
    let s := (create (fun _ => 0) 4 3).run es
    (ingested es).length < 2 ^ 53 ∧ s.store.totals.requests = 2 ∧ s.store.totals.lists = 1 ∧
    s.store.totals.timeCount = 1 := by
  intro blocked es s
  have h : (ingested es).length < 2 ^ 53 := by decide
  obtain ⟨hr, hl, -, -, -, ht⟩ := totals_eq_counts (fun _ => 0) 4 3 h
  refine ⟨h, ?_, ?_, ?_⟩
  · rw [hr]
    decide
  · rw [hl]
    decide
  · rw [ht]
    decide

end

end Statistics

end QueryStats
