import Mathlib
import QueryStats.Proofs.Sharding

/-!
# Sharded counts through a run

A run adds tallies to sharded counts and clears them.  What is merged at its end is one plain map of
the tallies since the last clear: neither the hash nor the number of shards can be told from it.
-/

namespace QueryStats

/-- What is added to a key, added up modulo `2 ^ 64` once at the end. -/
theorem Frequency.total_eq_ofNat_sum (key : Text) (ts : List Tally) :
    total key ts = UInt64.ofNat ((ts.filter (·.1 = key)).map (·.2.toNat)).sum := by
  induction ts using List.reverseRecOn with
  | nil => rfl
  | append_singleton ts t ih =>
    rw [total_concat, ih, List.filter_append, List.map_append, List.sum_append, UInt64.ofNat_add]
    by_cases h : t.1 = key <;> simp [h]

namespace Counts

/-! ## No key in two shards -/

section

variable {c : Counts} {f : Frequency}

/-- A key is in one shard only, the one its hash points to. -/
theorem Represents.mem_shard_iff (h : c.Represents f) (key : Text) (i : Fin c.shards.size) :
    key ∈ c.shards[i] ↔ c.shardOf key = i ∧ key ∈ f := by
  have hi := h i i.isLt key
  rw [Std.ExtTreeMap.mem_iff_isSome_getElem?, Std.ExtTreeMap.mem_iff_isSome_getElem?]
  change (c.shards[(i : Nat)])[key]?.isSome ↔ _
  rw [hi, Fin.ext_iff]
  split <;> simp [*]

/-- No two shards share a key. -/
theorem Represents.shard_unique (h : c.Represents f) {key : Text} {i j : Fin c.shards.size}
    (hi : key ∈ c.shards[i]) (hj : key ∈ c.shards[j]) : i = j :=
  ((h.mem_shard_iff key i).1 hi).1.symm.trans ((h.mem_shard_iff key j).1 hj).1

/-- The keys of all shards are the keys of the plain map, each of them once. -/
theorem Represents.perm_keys (h : c.Represents f) :
    (c.shards.toList.flatMap fun shard => shard.keys).Perm f.keys := by
  have hnd : (c.shards.toList.flatMap fun shard => shard.keys).Nodup := by
    refine List.nodup_flatMap.2 ⟨fun shard _ => Std.ExtTreeMap.nodup_keys, ?_⟩
    -- By positions: two shards may well be equal as maps, if both are empty.
    refine List.pairwise_iff_getElem.2 fun i j hi hj hij key hki hkj => ?_
    rw [Std.ExtTreeMap.mem_keys] at hki hkj
    have heq := h.shard_unique (i := ⟨i, by simpa using hi⟩) (j := ⟨j, by simpa using hj⟩) hki hkj
    rw [Fin.mk.injEq] at heq
    omega
  refine (List.perm_ext_iff_of_nodup hnd Std.ExtTreeMap.nodup_keys).2 fun key => ?_
  rw [List.mem_flatMap, Std.ExtTreeMap.mem_keys]
  constructor
  · rintro ⟨shard, hshard, hkey⟩
    obtain ⟨i, hi, rfl⟩ := List.getElem_of_mem hshard
    rw [Std.ExtTreeMap.mem_keys] at hkey
    exact ((h.mem_shard_iff key ⟨i, by simpa using hi⟩).1 hkey).2
  · intro hkey
    have hown := (h.mem_shard_iff key (c.shardOf key)).2 ⟨rfl, hkey⟩
    exact ⟨_, Array.getElem_mem_toList (c.shardOf key).isLt, Std.ExtTreeMap.mem_keys.2 hown⟩

/-- A merge goes through as many counts as the plain map has keys. -/
theorem Represents.entries_eq (h : c.Represents f) : c.entries = f.keys.length := by
  rw [← h.perm_keys.length_eq, List.length_flatMap, entries, ← Array.foldl_toList,
    List.sum_eq_foldl, List.foldl_map]
  simp only [Std.ExtTreeMap.length_keys]

end

/-! ## Runs -/

/-- What can happen to counts. -/
inductive Event where
  | add (key : Text) (n : UInt64)
  | clear
deriving DecidableEq, Repr

def apply (c : Counts) : Event → Counts
  | .add key n => c.add key n
  | .clear => c.clear

def run (c : Counts) (es : List Event) : Counts := es.foldl apply c

/-- Later events go on from where the earlier ones ended. -/
theorem run_append (c : Counts) (es fs : List Event) : c.run (es ++ fs) = (c.run es).run fs :=
  List.foldl_append

/-- What was added to the tallies at hand, or nothing after a clear. -/
def Event.tally : List Tally → Event → List Tally
  | ts, .add key n => ts ++ [(key, n)]
  | _, .clear => []

/-- The tallies added since the last clear. -/
def added (es : List Event) : List Tally := es.foldl Event.tally []

/-- Adding puts a tally behind those added before. -/
@[simp] theorem added_add (es : List Event) (key : Text) (n : UInt64) :
    added (es ++ [.add key n]) = added es ++ [(key, n)] := List.foldl_append

/-- Nothing is left of what was added before the counts were cleared. -/
@[simp] theorem added_clear (es : List Event) : added (es ++ [.clear]) = [] := List.foldl_append

/-- The hash never changes. -/
theorem hash_run (c : Counts) (es : List Event) : (c.run es).hash = c.hash := by
  induction es using List.reverseRecOn with
  | nil => rfl
  | append_singleton es e ih => rw [run_append, ← ih]; cases e <;> rfl

/-- The number of shards never changes. -/
theorem size_run (c : Counts) (es : List Event) : (c.run es).shards.size = c.shards.size := by
  induction es using List.reverseRecOn with
  | nil => rfl
  | append_singleton es e ih => rw [run_append, ← ih]; cases e <;> simp [run, apply]

/-- One more event keeps the shards and the plain map alike. -/
theorem Represents.apply {c : Counts} {es : List Event}
    (h : c.Represents ((∅ : Frequency).addAll (added es))) (e : Event) :
    (c.apply e).Represents ((∅ : Frequency).addAll (added (es ++ [e]))) := by
  cases e with
  | add key n =>
    rw [added_add, Frequency.addAll_append]
    exact h.add key n
  | clear =>
    rw [added_clear]
    exact represents_clear c

/-- The shards stand for the one map that counts what was added since the last clearing. -/
theorem represents_run (hash : Text → UInt64) (requested : Nat) (es : List Event) :
    ((create hash requested).run es).Represents ((∅ : Frequency).addAll (added es)) := by
  induction es using List.reverseRecOn with
  | nil => exact represents_create hash requested
  | append_singleton es e ih => rw [run_append]; exact ih.apply e

/-- Counts over any number of shards, by any hash, are one plain map: a key is there if it was added
since the last clear, be it with zero, and its count is all that was added to it, modulo `2 ^ 64`.
A key has a place in one shard only, so a merge goes through every key once.  For a large merge one
line is logged, with the number of its keys, and for any other nothing. -/
theorem merged_run_eq_plain (hash : Text → UInt64) (requested : Nat) (es : List Event) :
    let c := (create hash requested).run es
    let distinct := ((added es).map (·.1)).dedup.length
    (1 ≤ c.shards.size ∧ c.shards.size ≤ 256) ∧
    (∀ key, (c.shardOf key : Nat) = (hash key).toNat % c.shards.size ∧
      (c.shardOf key : Nat) < c.shards.size) ∧
    (∀ key, ∀ i j : Fin c.shards.size, key ∈ c.shards[i] → key ∈ c.shards[j] → i = j) ∧
    (∀ key, c.merged[key]? =
      if key ∈ (added es).map (·.1) then
        some (UInt64.ofNat (((added es).filter (·.1 = key)).map (·.2.toNat)).sum)
      else none) ∧
    (∀ hash' requested', ((create hash' requested').run es).merged = c.merged) ∧
    c.notices = (if 100000 < distinct then [.largeMerge distinct] else []) ∧
    Message.transcript c.notices =
      if 100000 < distinct then
        utf8 "ShardedCounts::snapshot: merged total entries=" ++ Text.ofNat distinct ++ utf8 "\n"
      else [] := by
  intro c distinct
  have hr : c.Represents ((∅ : Frequency).addAll (added es)) := represents_run hash requested es
  have hsize : c.shards.size = shardsFor requested := by
    rw [size_run, size_create]
  have hentries : c.entries = distinct := by
    rw [hr.entries_eq, (Frequency.perm_keys_addAll _).length_eq]
  have hnotices : c.notices = if 100000 < distinct then [.largeMerge distinct] else [] := by
    rw [notices, hentries]
    rfl
  refine ⟨?_, fun key => ⟨?_, (c.shardOf key).isLt⟩, fun key i j hi hj => hr.shard_unique hi hj,
    fun key => ?_, fun hash' requested' => ?_, hnotices, ?_⟩
  · rw [hsize]
    exact ⟨shardsFor_pos requested, shardsFor_le requested⟩
  · change (c.hash key).toNat % _ = _
    rw [hash_run]
    rfl
  · rw [hr.merged_eq, Frequency.getElem?_addAll_empty, Frequency.total_eq_ofNat_sum]
  · rw [hr.merged_eq, (represents_run hash' requested' es).merged_eq]
  · rw [hnotices]
    split_ifs
    · exact List.append_nil _
    · rfl

/-- A key added with zero, under a hash that is 5 for every key. -/
theorem merged_run_eq_plain_of_zero :
    let es : List Event := [.add [98] 1, .clear, .add [97] 0]
    let c := (create (fun _ => 5) 3).run es
    let last : Fin c.shards.size := ⟨2, by decide +kernel⟩
    [97] ∈ c.shards[last] ∧ [97] ∈ c.shards[c.shardOf [97]] ∧ last = c.shardOf [97] := by
  intro es c last
  have hlast : [97] ∈ c.shards[last] := by decide +kernel
  have hown : [97] ∈ c.shards[c.shardOf [97]] := by decide +kernel
  obtain ⟨-, -, hunique, -⟩ := merged_run_eq_plain (fun _ => 5) 3 es
  exact ⟨hlast, hown, hunique [97] last (c.shardOf [97]) hlast hown⟩

end Counts

end QueryStats
