import Mathlib.Data.List.Dedup
import Mathlib.Data.List.Induction
import Mathlib.Data.List.Nodup
import QueryStats.Counts

/-!
# Shards as one plain map

The hash of a key says in which shard it is counted, so no key is counted in two of them.  Merging
then gives back the map that one would have kept without shards, whatever the hash and however many
shards there are.
-/

namespace QueryStats

namespace Frequency

/-- What a list of tallies adds to a key. -/
def total (key : Text) (ts : List Tally) : UInt64 :=
  ts.foldl (fun n t => if t.1 = key then n + t.2 else n) 0

/-- One more tally adds to the total of its key. -/
@[simp] theorem total_concat (key : Text) (ts : List Tally) (t : Tally) :
    total key (ts ++ [t]) = if t.1 = key then total key ts + t.2 else total key ts := by
  simp [total]

/-- A key that is not listed has no total. -/
theorem total_eq_zero {key : Text} {ts : List Tally} (h : key ∉ ts.map (·.1)) :
    total key ts = 0 := by
  induction ts using List.reverseRecOn with
  | nil => rfl
  | append_singleton ts t ih =>
    rw [List.map_append, List.mem_append, not_or] at h
    have ht : t.1 ≠ key := fun e => h.2 (by simp [e])
    rw [total_concat, if_neg ht, ih h.1]

/-- Counting from nothing: a key is there if it was added, even with zero. -/
theorem getElem?_addAll_empty (ts : List Tally) (key : Text) :
    ((∅ : Frequency).addAll ts)[key]? =
      if key ∈ ts.map (·.1) then some (total key ts) else none := by
  induction ts using List.reverseRecOn with
  | nil => simp
  | append_singleton ts t ih =>
    rw [addAll_append, addAll_cons, addAll_nil, getElem?_add, total_concat]
    by_cases h : t.1 = key
    · subst h
      rw [ih]
      by_cases hm : t.1 ∈ ts.map (·.1)
      · simp [hm]
      · simp [hm, total_eq_zero hm]
    · have hmem : key ∈ (ts ++ [t]).map (·.1) ↔ key ∈ ts.map (·.1) := by
        rw [List.map_append, List.mem_append, List.map_singleton, List.mem_singleton]
        exact or_iff_left (Ne.symm h)
      rw [if_neg h, if_neg h, ih]
      simp only [hmem]

/-- The keys are those that were added. -/
theorem perm_keys_addAll (ts : List Tally) :
    ((∅ : Frequency).addAll ts).keys.Perm (ts.map (·.1)).dedup := by
  refine (List.perm_ext_iff_of_nodup Std.ExtTreeMap.nodup_keys (List.nodup_dedup _)).2 ?_
  intro key
  rw [Std.ExtTreeMap.mem_keys, Std.ExtTreeMap.mem_iff_isSome_getElem?, getElem?_addAll_empty,
    List.mem_dedup]
  split <;> simp [*]

/-- Adding tallies with other keys changes nothing for a key. -/
theorem getElem?_addAll_of_not_mem (f : Frequency) {ts : List Tally} {key : Text}
    (h : key ∉ ts.map (·.1)) : (f.addAll ts)[key]? = f[key]? := by
  induction ts generalizing f with
  | nil => rfl
  | cons t ts ih =>
    rw [List.map_cons, List.mem_cons, not_or] at h
    rw [addAll_cons, ih _ h.2, getElem?_add, if_neg (Ne.symm h.1)]

/-- A map lists each key once. -/
theorem nodup_keys (f : Frequency) : (f.toList.map (·.1)).Nodup := by
  rw [Std.ExtTreeMap.map_fst_toList_eq_keys]
  exact Std.ExtTreeMap.nodup_keys

/-- A map lists the keys it has. -/
theorem mem_keys {f : Frequency} {key : Text} : key ∈ f.toList.map (·.1) ↔ f[key]?.isSome := by
  rw [Std.ExtTreeMap.map_fst_toList_eq_keys, Std.ExtTreeMap.mem_keys,
    Std.ExtTreeMap.mem_iff_isSome_getElem?]

/-- Adding a whole map to one that lacks a key brings in the key as it stands. -/
theorem getElem?_addAll_toList {f g : Frequency} {key : Text} (h : f[key]? = none) :
    (f.addAll g.toList)[key]? = g[key]? := by
  cases hg : g[key]? with
  | none =>
    have hkey : key ∉ g.toList.map (·.1) := by
      rw [mem_keys, hg]
      exact Bool.false_ne_true
    rw [getElem?_addAll_of_not_mem f hkey, h]
  | some n =>
    have hmem : (key, n) ∈ g.toList := Std.ExtTreeMap.mem_toList_iff_getElem?_eq_some.2 hg
    obtain ⟨l, r, hlr⟩ := List.append_of_mem hmem
    have hnd := nodup_keys g
    rw [hlr, List.map_append, List.map_cons, List.nodup_middle, List.nodup_cons,
      List.mem_append, not_or] at hnd
    rw [hlr, addAll_append, addAll_cons, getElem?_addAll_of_not_mem _ hnd.1.2, getElem?_add,
      if_pos rfl, getElem?_addAll_of_not_mem f hnd.1.1, h]
    simp

end Frequency

namespace Counts

variable {c : Counts} {f : Frequency}

/-- The shards of `c` hold the counts of `f`, each key in its own shard. -/
def Represents (c : Counts) (f : Frequency) : Prop :=
  ∀ (i : Nat) (hi : i < c.shards.size) (key : Text),
    (c.shards[i])[key]? = if (c.shardOf key : Nat) = i then f[key]? else none

/-- New counts stand for the empty map. -/
theorem represents_create (hash : Text → UInt64) (requested : Nat) :
    (create hash requested).Represents ∅ := by
  intro i hi key
  simp [create]

/-- Cleared counts stand for the empty map. -/
theorem represents_clear (c : Counts) : c.clear.Represents ∅ := by
  intro i hi key
  simp [clear]

/-- Counting a key touches its own shard only. -/
theorem Represents.add (h : c.Represents f) (key : Text) (n : UInt64) :
    (c.add key n).Represents (f.add key n) := by
  intro i hi k
  have hi' : i < c.shards.size := by simpa using hi
  have hshard : ∀ k, ((c.add key n).shardOf k : Nat) = c.shardOf k := by simp [shardOf]
  rw [hshard, Frequency.getElem?_add]
  simp only [Counts.add, Array.getElem_modify]
  split
  case isTrue hi =>
    rw [Frequency.getElem?_add, h i hi' k, h i hi' key, if_pos hi]
    by_cases hk : key = k
    · subst hk
      simp [hi]
    · simp [hk]
  case isFalse hi =>
    rw [h i hi' k]
    split
    case isTrue hik =>
      have hk : key ≠ k := fun e => hi (e ▸ hik)
      rw [if_neg hk]
    case isFalse => rfl

/-! ## Merging -/

/-- Shards without a key add nothing to its count. -/
theorem getElem?_foldl_addAll_of_none {shards : List Frequency} {key : Text}
    (h : ∀ s ∈ shards, s[key]? = none) (f : Frequency) :
    (shards.foldl (fun f s => f.addAll s.toList) f)[key]? = f[key]? := by
  induction shards generalizing f with
  | nil => rfl
  | cons s shards ih =>
    have hs : key ∉ s.toList.map (·.1) := by
      rw [Frequency.mem_keys, h s List.mem_cons_self]
      exact Bool.false_ne_true
    rw [List.foldl_cons, ih (fun s hs => h s (List.mem_cons_of_mem _ hs)),
      Frequency.getElem?_addAll_of_not_mem f hs]

/-- A key is looked up after merging as it is in its own shard. -/
theorem Represents.getElem?_merged (h : c.Represents f) (key : Text) :
    c.merged[key]? = f[key]? := by
  let own := c.shardOf key
  have hlen : c.shards.toList.length = c.shards.size := Array.length_toList
  have hnone : ∀ (i : Nat) (hi : i < c.shards.size), i ≠ own → (c.shards[i])[key]? = none := by
    intro i hi hne
    rw [h i hi key, if_neg (Ne.symm hne)]
  have hbefore : ∀ s ∈ c.shards.toList.take own, s[key]? = none := by
    intro s hs
    obtain ⟨i, hi, rfl⟩ := List.mem_take_iff_getElem.1 hs
    exact hnone i (by omega) (by omega)
  have hafter : ∀ s ∈ c.shards.toList.drop (own + 1), s[key]? = none := by
    intro s hs
    obtain ⟨i, hi, rfl⟩ := List.mem_drop_iff_getElem.1 hs
    exact hnone _ (by omega) (by omega)
  have hsplit : c.shards.toList =
      c.shards.toList.take own ++ c.shards[own] :: c.shards.toList.drop (own + 1) := by
    conv_lhs => rw [← List.take_append_drop own c.shards.toList,
      List.drop_eq_getElem_cons (by rw [hlen]; exact own.isLt)]
    rfl
  rw [merged, ← Array.foldl_toList, hsplit, List.foldl_append, List.foldl_cons,
    getElem?_foldl_addAll_of_none hafter, Frequency.getElem?_addAll_toList]
  · exact (h own own.isLt key).trans (if_pos rfl)
  · rw [getElem?_foldl_addAll_of_none hbefore]
    exact Std.ExtTreeMap.getElem?_empty

/-- Merging the shards yields the map they stand for. -/
theorem Represents.merged_eq (h : c.Represents f) : c.merged = f :=
  Std.ExtTreeMap.ext_getElem? h.getElem?_merged

end Counts

end QueryStats
