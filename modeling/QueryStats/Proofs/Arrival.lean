import Mathlib
import QueryStats.Proofs.Agreement
import QueryStats.Proofs.Buckets
import QueryStats.Proofs.Ranking

/-!
# The order of arrival

Workers take in the lines of a bucket in no particular order, the hash of a key decides where it is
counted, and a map is gone through in whatever order it keeps its keys in.  None of this shows:
counts, rankings and totals tell which entries each bucket has, and nothing else.
-/

namespace QueryStats

/-! ## Maps gone through in any order -/

namespace Frequency

/-- Two tallies can be added in either order. -/
theorem add_right_comm (f : Frequency) (s t : Tally) :
    (f.add s.1 s.2).add t.1 t.2 = (f.add t.1 t.2).add s.1 s.2 := by
  apply Std.ExtTreeMap.ext_getElem?
  intro key
  simp only [getElem?_add]
  by_cases hs : s.1 = key
  · by_cases ht : t.1 = key
    · simp only [hs, ht, if_true, Option.getD_some]
      rw [UInt64.add_assoc, UInt64.add_comm s.2, ← UInt64.add_assoc]
    · simp [hs, ht]
  · by_cases ht : t.1 = key <;> simp [hs, ht]

/-- Tallies can be added in any order. -/
theorem addAll_perm {ts us : List Tally} (h : ts.Perm us) (f : Frequency) :
    f.addAll ts = f.addAll us :=
  h.foldl_eq' (fun s _ t _ f => add_right_comm f s t) f

/-- Keys can be counted in any order. -/
theorem ofKeys_perm {keys keys' : List Text} (h : keys.Perm keys') : ofKeys keys = ofKeys keys' :=
  addAll_perm (h.map _) ∅

end Frequency

namespace Counts

variable {c : Counts} {f : Frequency}

/-- A frequency that merging may end with.  Each shard is gone through in an order of its own. -/
def MergesTo (c : Counts) (f : Frequency) : Prop :=
  ∃ tss : List (List Tally),
    List.Forall₂ (fun ts shard => ts.Perm shard.toList) tss c.shards.toList ∧
    f = tss.foldl Frequency.addAll ∅

/-- A merge does not depend on the order in which each shard gives out its tallies. -/
theorem foldl_addAll_eq {tss : List (List Tally)} {shards : List Frequency}
    (h : List.Forall₂ (fun ts shard => ts.Perm shard.toList) tss shards) (f : Frequency) :
    tss.foldl Frequency.addAll f = shards.foldl (fun f shard => f.addAll shard.toList) f := by
  induction h generalizing f with
  | nil => rfl
  | cons hts _ ih => rw [List.foldl_cons, List.foldl_cons, Frequency.addAll_perm hts, ih]

/-- However the shards are gone through, one map comes of the merge. -/
theorem mergesTo_iff : c.MergesTo f ↔ f = c.merged := by
  rw [merged, ← Array.foldl_toList]
  constructor
  · rintro ⟨tss, htss, rfl⟩
    exact foldl_addAll_eq htss ∅
  · rintro rfl
    have hself : List.Forall₂ (fun ts shard => ts.Perm shard.toList)
        (c.shards.toList.map Std.ExtTreeMap.toList) c.shards.toList :=
      List.forall₂_map_left_iff.2 (List.forall₂_same.2 fun _ _ => .refl _)
    exact ⟨_, hself, (foldl_addAll_eq hself ∅).symm⟩

end Counts

namespace Counter

/-- A ranking that may be shown.  The merged counts, too, are gone through in any order. -/
def MayRank (c : Counter) (a : Attribute) (n : Int) (ts : List Tally) : Prop :=
  ∃ f us, (c.counts a).MergesTo f ∧ us.Perm f.toList ∧ ts = Ranking.top n us

/-- However the map is gone through, one ranking comes of it. -/
theorem mayRank_iff {c : Counter} {a : Attribute} {n : Int} {ts : List Tally} :
    c.MayRank a n ts ↔ ts = c.top a n := by
  constructor
  · rintro ⟨f, us, hf, hus, rfl⟩
    rw [Counts.mergesTo_iff] at hf
    subst hf
    exact Ranking.top_eq_of_perm n hus
  · rintro rfl
    exact ⟨_, _, Counts.mergesTo_iff.2 rfl, .refl _, rfl⟩

end Counter

/-! ## Totals of rearranged queries -/

/-- The query with another reading of its duration. -/
def Query.map {α β : Type} (f : α → β) (q : Query α) : Query β := ⟨q.category, q.elapsed.map f⟩

namespace Store

variable {α β : Type}

def Event.map (f : α → β) : Event α → Event β
  | .record q => .record (q.map f)
  | .rotate => .rotate
  | .reset => .reset

/-- Durations can be carried over to another arithmetic before they are recorded or afterwards. -/
theorem older_map (f : α → β) (j : Nat) (es : List (Event α)) :
    older j (es.map (Event.map f)) = (older j es).map (Query.map f) := by
  induction es using List.reverseRecOn generalizing j with
  | nil => rfl
  | append_singleton es e ih =>
    rw [List.map_append, List.map_singleton]
    cases e with
    | record q =>
      rw [Event.map, older_record, older_record, ih, List.map_append]
      split <;> rfl
    | rotate => rw [Event.map, older_rotate, older_rotate, ih]
    | reset => rw [Event.map, older_reset, older_reset, List.map_nil]

variable [Scalar α] {qs rs : List (Query α)}

/-- What a metric counts does not depend on the order, however numbers are added. -/
theorem tally_perm {k : Metric} (hk : k ≠ .timeSum) (h : qs.Perm rs) : tally k qs = tally k rs := by
  refine h.foldl_eq' (fun q _ r _ x => ?_) 0
  simp only [Query.count_eq _ hk]
  cases q.counts k <;> cases r.counts k <;> rfl

/-- Without rounding, the sum of durations is their sum. -/
theorem tally_timeSum (qs : List (Query Rat)) : tally .timeSum qs = (Query.durations qs).sum := by
  rw [tally, foldl_timeSum]
  exact Rat.zero_add _

/-- Without rounding, the order of the durations does not matter either. -/
theorem tally_perm_rat {qs rs : List (Query Rat)} (h : qs.Perm rs) (k : Metric) :
    tally k qs = tally k rs := by
  by_cases hk : k = .timeSum
  · subst hk
    rw [tally_timeSum, tally_timeSum]
    exact (h.filterMap _).sum_eq
  · exact tally_perm hk h

namespace Recalls

variable {s t : Store α} {es fs : List (Event α)} {k : Metric}

/-- A metric with the same tallies in two runs has the same series in both stores. -/
theorem series_eq (hs : Recalls s es) (ht : Recalls t fs) (hst : s.history = t.history)
    (h : ∀ j, tally k (older j es) = tally k (older j fs)) : s.series.get k = t.series.get k := by
  rw [hs.series, ht.series, hst]
  simp only [h]

/-- A metric with the same tallies in two runs has the same total in both stores. -/
theorem totals_eq (hs : Recalls s es) (ht : Recalls t fs)
    (h : ∀ j, tally k (older j es) = tally k (older j fs)) : s.totals.get k = t.totals.get k := by
  rw [hs.totals, ht.totals, h]

/-- A store is determined by its tallies and by how many buckets it keeps. -/
theorem eq (hs : Recalls s es) (ht : Recalls t fs) (hst : s.history = t.history)
    (h : ∀ k j, tally k (older j es) = tally k (older j fs)) : s = t := by
  have hseries : s.series = t.series := Metrics.ext_get fun k => hs.series_eq ht hst (h k)
  have htotals : s.totals = t.totals := Metrics.ext_get fun k => hs.totals_eq ht (h k)
  cases s
  cases t
  simp_all

/-- All figures of a summary but the mean are counts. -/
theorem summary_eq (hs : Recalls s es) (ht : Recalls t fs)
    (h : ∀ k ≠ .timeSum, ∀ j, tally k (older j es) = tally k (older j fs)) :
    s.totals.summary.named.dropLast = t.totals.summary.named.dropLast := by
  have htotals : ∀ k ≠ .timeSum, s.totals.get k = t.totals.get k :=
    fun k hk => hs.totals_eq ht (h k hk)
  change [(_, s.totals.get .requests), (_, s.totals.get .lists), (_, s.totals.get .safeBrowsing),
    (_, s.totals.get .safeSearch), (_, s.totals.get .parental)] = _
  rw [htotals .requests (by decide), htotals .lists (by decide), htotals .safeBrowsing (by decide),
    htotals .safeSearch (by decide), htotals .parental (by decide)]
  rfl

/-- Reports differ at most in the last figure if only the sums of durations may differ. -/
theorem report_eq (hs : Recalls s es) (ht : Recalls t fs) (hst : s.history = t.history)
    (h : ∀ k ≠ .timeSum, ∀ j, tally k (older j es) = tally k (older j fs)) (w : Window) :
    (s.view.report w).named.dropLast = (t.view.report w).named.dropLast := by
  have hgain : ∀ k ≠ .timeSum, ∀ j, gain k j es = gain k j fs :=
    fun k hk j => by rw [gain, gain, h k hk, h k hk]
  rw [hs.report_view, ht.report_view, hst]
  simp only [Figures.named, List.dropLast, hgain .requests (by decide), hgain .lists (by decide),
    hgain .safeBrowsing (by decide), hgain .safeSearch (by decide), hgain .parental (by decide)]

end Recalls

end Store

namespace Statistics

/-! ## Entries between rotations -/

def Event.isRotate : Event → Bool
  | .rotate => true
  | _ => false

/-- The entries of a run as they fall between its rotations, the oldest first. -/
def rounds (es : List Event) : List (List Entry) := (es.splitOnP Event.isRotate).map ingested

/-- Two runs take in the same entries between rotations, each in an order of its own. -/
def Shuffled (es fs : List Event) : Prop := List.Forall₂ List.Perm (rounds es) (rounds fs)

@[simp] theorem rounds_nil : rounds [] = [[]] := rfl

/-- A rotation ends a round. -/
@[simp] theorem rounds_rotate (es : List Event) : rounds (.rotate :: es) = [] :: rounds es := by
  rw [rounds, List.splitOnP_cons_eq_if_modifyHead]
  rfl

/-- An entry belongs to the round that it is in. -/
@[simp] theorem rounds_ingest (e : Entry) (es : List Event) :
    rounds (.ingest e :: es) = (rounds es).modifyHead (e :: ·) := by
  rw [rounds, List.splitOnP_cons_eq_if_modifyHead, rounds]
  cases es.splitOnP Event.isRotate <;> rfl

@[simp] theorem rounds_decodeError (es : List Event) : rounds (.decodeError :: es) = rounds es := by
  rw [rounds, List.splitOnP_cons_eq_if_modifyHead, rounds]
  cases es.splitOnP Event.isRotate <;> rfl

/-- A run has at least the round that it starts with. -/
theorem rounds_ne_nil (es : List Event) : rounds es ≠ [] := by
  induction es with
  | nil => simp
  | cons e es ih => cases e <;> simp [ih]

/-- The entries of all rounds, one round after the other, are those of the run. -/
theorem flatten_rounds (es : List Event) : (rounds es).flatten = ingested es := by
  induction es with
  | nil => rfl
  | cons e es ih =>
    cases e with
    | ingest e =>
      obtain ⟨r, rs, hr⟩ := List.exists_cons_of_ne_nil (rounds_ne_nil es)
      rw [hr, List.flatten_cons] at ih
      rw [rounds_ingest, hr, List.modifyHead_cons, List.flatten_cons, List.cons_append, ih]
      rfl
    | rotate => rw [rounds_rotate, List.flatten_cons, List.nil_append, ih]; rfl
    | decodeError => rw [rounds_decodeError, ih]; rfl

/-- The queries of the entries between rotations, each with the number of rotations after it. -/
def aged : List (List Entry) → List (Query Float × Nat)
  | [] => []
  | r :: rs => r.map (fun e => (e.query, rs.length)) ++ aged rs

/-- Every rotation starts a round. -/
theorem rotations_toStore (es : List Event) :
    Store.rotations (es.filterMap Event.toStore?) + 1 = (rounds es).length := by
  induction es with
  | nil => rfl
  | cons e es ih =>
    cases e with
    | ingest e =>
      rw [rounds_ingest, List.length_modifyHead, ← ih]
      rfl
    | rotate =>
      rw [rounds_rotate, List.length_cons, ← ih, Store.rotations, List.filterMap_cons]
      exact congrArg (· + 1) (List.countP_cons_of_pos rfl)
    | decodeError =>
      rw [rounds_decodeError, ← ih]
      rfl

/-- The age of a query in the store is the number of rounds behind its own. -/
theorem withAges_toStore (es : List Event) :
    Store.withAges (es.filterMap Event.toStore?) = aged (rounds es) := by
  induction es with
  | nil => rfl
  | cons e es ih =>
    cases e with
    | ingest e =>
      obtain ⟨r, rs, hr⟩ := List.exists_cons_of_ne_nil (rounds_ne_nil es)
      have hrot : Store.rotations (es.filterMap Event.toStore?) = rs.length := by
        have hlen := rotations_toStore es
        rw [hr] at hlen
        exact Nat.succ.inj hlen
      rw [rounds_ingest, hr, List.modifyHead_cons, aged, List.map_cons, List.cons_append, ← aged,
        ← hr, ← ih, ← hrot]
      rfl
    | rotate =>
      rw [rounds_rotate]
      exact ih
    | decodeError =>
      rw [rounds_decodeError]
      exact ih

/-- Nothing that the service takes in resets the store. -/
theorem sinceReset_toStore (es : List Event) :
    Store.sinceReset (es.filterMap Event.toStore?) = es.filterMap Event.toStore? := by
  refine List.rtakeWhile_eq_self_iff.2 fun e he => ?_
  obtain ⟨e', -, he'⟩ := List.mem_filterMap.1 he
  cases e' <;> cases he' <;> rfl

/-- Entries that change places within their rounds keep their ages. -/
theorem aged_perm {rs ss : List (List Entry)} (h : List.Forall₂ List.Perm rs ss) :
    (aged rs).Perm (aged ss) := by
  induction h with
  | nil => rfl
  | cons hr hrs ih =>
    rw [aged, aged, hrs.length_eq]
    exact (hr.map _).append ih

namespace Shuffled

variable {es fs : List Event}

/-- Two shuffled runs take in the same entries. -/
theorem ingested_perm (h : Shuffled es fs) : (ingested es).Perm (ingested fs) := by
  rw [← flatten_rounds, ← flatten_rounds]
  exact List.Perm.flatten_congr h

/-- Two shuffled runs have recorded the same queries before each of their rotations. -/
theorem older_perm (h : Shuffled es fs) (j : Nat) :
    (Store.older j (es.filterMap Event.toStore?)).Perm
      (Store.older j (fs.filterMap Event.toStore?)) := by
  rw [Store.older, Store.older, Store.recorded, Store.recorded, sinceReset_toStore,
    sinceReset_toStore, withAges_toStore, withAges_toStore]
  exact ((aged_perm h).filter _).map _

end Shuffled

/-! ## What two runs have in common -/

/-- The store of a run whose durations are read as exact numbers, so that no sum is rounded. -/
def exactStore (exact : Float → Rat) (history : Nat) (es : List Event) : Store Rat :=
  (Store.create history).run ((es.filterMap Event.toStore?).map (.map exact))

/-- The merged counts of a run are those of the keys of its entries, for any hash and any number of
shards. -/
theorem merged_run (hash : Text → UInt64) (shards history : Nat) (es : List Event)
    (a : Attribute) :
    (((create hash shards history).run es).counter.counts a).merged =
      Frequency.ofKeys (Counter.keys a (ingested es)) := by
  rw [counter_run, ← added_toCounter]
  exact ((Counter.recalls_run hash shards _).counts a).merged_eq

/-- The store of a run recalls what was recorded in it. -/
theorem recalls_store (hash : Text → UInt64) (shards history : Nat) (es : List Event) :
    Store.Recalls ((create hash shards history).run es).store (es.filterMap Event.toStore?) := by
  rw [store_run]
  exact Store.recalls_run history _

/-- How many buckets the store keeps is settled before the run. -/
theorem history_store (hash : Text → UInt64) (shards history : Nat) (es : List Event) :
    ((create hash shards history).run es).store.history = Store.historyFor history := by
  rw [store_run]
  exact Store.history_run_create history _

namespace Shuffled

variable {es fs : List Event}

/-- Two shuffled runs count the same keys. -/
theorem keys_perm (h : Shuffled es fs) (a : Attribute) :
    (Counter.keys a (ingested es)).Perm (Counter.keys a (ingested fs)) :=
  (h.ingested_perm.map _).filter _

/-- Two shuffled runs have the same merged counts, whatever their hashes and numbers of shards. -/
theorem merged_eq (h : Shuffled es fs) (hash hash' : Text → UInt64) (shards shards' history : Nat)
    (a : Attribute) :
    (((create hash shards history).run es).counter.counts a).merged =
      (((create hash' shards' history).run fs).counter.counts a).merged := by
  rw [merged_run, merged_run, Frequency.ofKeys_perm (h.keys_perm a)]

/-- Without rounding, two shuffled runs leave the same store behind. -/
theorem exactStore_eq (h : Shuffled es fs) (exact : Float → Rat) (history : Nat) :
    exactStore exact history es = exactStore exact history fs := by
  refine (Store.recalls_run history _).eq (Store.recalls_run history _) ?_ fun k j => ?_
  · exact (Store.history_run_create history _).trans (Store.history_run_create history _).symm
  · rw [Store.older_map, Store.older_map]
    exact Store.tally_perm_rat ((h.older_perm j).map _) k

end Shuffled

/-- Neither the order in which the entries of a bucket arrive, nor the shards and hash that they are
counted by, nor the order in which maps are gone through can be told from what is shown: the number
of entries, the merged counts and every ranking are the same in both runs, and so are all totals and
slots that count.  The sum of the durations is, as far as it is not rounded; without rounding the
whole store is the same, with every summary and report. -/
theorem unobservable_of_shuffled (hash hash' : Text → UInt64) (shards shards' history : Nat)
    {es fs : List Event} (h : Shuffled es fs) :
    let s := (create hash shards history).run es
    let t := (create hash' shards' history).run fs
    s.counter.entries = t.counter.entries ∧
    (∀ a,
      (s.counter.counts a).merged = (t.counter.counts a).merged ∧
      (∀ f g, (s.counter.counts a).MergesTo f → (t.counter.counts a).MergesTo g → f = g) ∧
      ∀ n,
        Ranking.text (s.counter.top a n) = Ranking.text (t.counter.top a n) ∧
        ∀ ts us, s.counter.MayRank a n ts → t.counter.MayRank a n us →
          Ranking.text ts = Ranking.text us) ∧
    (∀ k ≠ .timeSum,
      s.store.totals.get k = t.store.totals.get k ∧
      s.store.view.series.get k = t.store.view.series.get k) ∧
    s.store.totals.summary.named.dropLast = t.store.totals.summary.named.dropLast ∧
    (∀ w, (s.store.view.report w).named.dropLast = (t.store.view.report w).named.dropLast) ∧
    ∀ exact : Float → Rat,
      let u := exactStore exact history es
      let v := exactStore exact history fs
      u.totals = v.totals ∧ u.view = v.view ∧ u.totals.summary = v.totals.summary ∧
      ∀ w, u.view.report w = v.view.report w := by
  intro s t
  have hmerged : ∀ a, (s.counter.counts a).merged = (t.counter.counts a).merged :=
    h.merged_eq hash hash' shards shards' history
  have htop : ∀ a n, s.counter.top a n = t.counter.top a n := fun a n => by
    rw [Counter.top, Counter.top, hmerged]
  have hs := recalls_store hash shards history es
  have ht := recalls_store hash' shards' history fs
  have hst : s.store.history = t.store.history := by rw [history_store, history_store]
  have htally : ∀ k ≠ .timeSum, ∀ j,
      Store.tally (α := Float) k (Store.older j (es.filterMap Event.toStore?)) =
        Store.tally k (Store.older j (fs.filterMap Event.toStore?)) :=
    fun k hk j => Store.tally_perm hk (h.older_perm j)
  refine ⟨?_, fun a => ⟨hmerged a, ?_, fun n => ⟨by rw [htop], ?_⟩⟩, fun k hk => ⟨?_, ?_⟩,
    hs.summary_eq ht htally, hs.report_eq ht hst htally, fun exact => ?_⟩
  · rw [entries_run, entries_run, h.ingested_perm.length_eq]
  · intro f g hf hg
    rw [Counts.mergesTo_iff.1 hf, Counts.mergesTo_iff.1 hg, hmerged]
  · intro ts us hts hus
    rw [Counter.mayRank_iff.1 hts, Counter.mayRank_iff.1 hus, htop]
  · exact hs.totals_eq ht (htally k hk)
  · exact hs.series_eq ht hst (htally k hk)
  · intro u v
    have huv : u = v := h.exactStore_eq exact history
    exact ⟨congrArg _ huv, congrArg _ huv, by rw [huv], fun w => by rw [huv]⟩

/-- Entries change places within two buckets, over one shard and over seven. -/
theorem unobservable_of_swapped_entries :
    let a : Entry := .object [(utf8 "client", .text (utf8 "10.0.0.2"))]
    let b : Entry :=
      .object [(utf8 "client", .text (utf8 "10.0.0.1")), (utf8 "elapsedMs", .number 5)]
    let es : List Event := [.ingest a, .ingest b, .rotate, .ingest b, .ingest a, .ingest .absent]
    let fs : List Event :=
      [.ingest b, .decodeError, .ingest a, .rotate, .ingest a, .ingest b, .ingest .absent]
    let s := (create (fun _ => 0) 1 5).run es
    let t := (create (fun key => UInt64.ofNat key.length) 7 5).run fs
    Shuffled es fs ∧ s.counter.entries = t.counter.entries ∧
    Ranking.text (s.counter.top .clients 1) = Ranking.text (t.counter.top .clients 1) ∧
    s.store.view.series.get .requests = t.store.view.series.get .requests := by
  intro a b es fs s t
  have h : Shuffled es fs := .cons (.swap b a []) (.cons (.swap a b [.absent]) .nil)
  obtain ⟨hentries, hcounts, hmetrics, -⟩ := unobservable_of_shuffled (fun _ => 0)
    (fun key => UInt64.ofNat key.length) 1 7 5 h
  exact ⟨h, hentries, ((hcounts .clients).2.2 1).1, (hmetrics .requests (by decide)).2⟩

end Statistics

end QueryStats
