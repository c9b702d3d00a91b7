import Mathlib
import QueryStats.Counter
import QueryStats.Proofs.Sharding

/-!
# A counter counts

Whatever was added to a counter, in whatever shape, its numbers are plain counts of the entries
since the last reset, modulo `2 ^ 64`.
-/

namespace QueryStats

/-! ## Keys counted one by one -/

namespace Frequency

/-- How often each key occurs. -/
def ofKeys (keys : List Text) : Frequency := (∅ : Frequency).addAll (keys.map fun key => (key, 1))

/-- One more key is counted once. -/
theorem ofKeys_concat (keys : List Text) (key : Text) :
    ofKeys (keys ++ [key]) = (ofKeys keys).add key 1 := by
  rw [ofKeys, List.map_append, addAll_append]
  rfl

/-- Counting a key once each time it occurs gives the number of times, modulo `2 ^ 64`. -/
theorem total_ones (key : Text) (keys : List Text) :
    total key (keys.map fun k => (k, 1)) = UInt64.ofNat (keys.count key) := by
  induction keys using List.reverseRecOn with
  | nil => rfl
  | append_singleton keys k ih =>
    rw [List.map_append, List.map_singleton, total_concat, ih, List.count_append,
      List.count_singleton, UInt64.ofNat_add]
    by_cases h : k = key <;> simp [h]

/-- The count of a key is how often it occurs, and a key that does not occur has none. -/
theorem getElem?_ofKeys (keys : List Text) (key : Text) :
    (ofKeys keys)[key]? = if key ∈ keys then some (UInt64.ofNat (keys.count key)) else none := by
  rw [ofKeys, getElem?_addAll_empty, total_ones]
  simp

/-- The keys are those that occur. -/
theorem perm_keys_ofKeys (keys : List Text) : (ofKeys keys).keys.Perm keys.dedup := by
  have h := perm_keys_addAll (keys.map fun key => (key, 1))
  rwa [List.map_map, Function.comp_def, List.map_id'] at h

/-- All counts together, one for each key of a list. -/
theorem sum_counts_ofKeys (keys : List Text) :
    ((ofKeys keys).toList.map fun t => keys.count t.1).sum = keys.length := by
  have hkeys : ((ofKeys keys).toList.map fun t => keys.count t.1) =
      (ofKeys keys).keys.map (keys.count ·) := by
    rw [← Std.ExtTreeMap.map_fst_toList_eq_keys, List.map_map]
    rfl
  rw [hkeys, ((perm_keys_ofKeys keys).map _).sum_nat]
  -- The library's lemma compares by decidable equality, a text byte by byte.
  have hbeq : (List.instBEq : BEq Text) = instBEqOfDecidableEq := lawful_beq_subsingleton _ _
  rw [hbeq]
  exact List.sum_map_count_dedup_eq_length keys

/-- A tally says how often its key occurs. -/
theorem count_of_mem_ofKeys {keys : List Text} {t : Tally} (h : t ∈ (ofKeys keys).toList) :
    t.2 = UInt64.ofNat (keys.count t.1) := by
  have ht := Std.ExtTreeMap.mem_toList_iff_getElem?_eq_some.1 h
  rw [getElem?_ofKeys] at ht
  split at ht
  · exact (Option.some.inj ht).symm
  · simp at ht

/-- Counts may wrap round; their sum is right modulo `2 ^ 64` all the same. -/
theorem ofNat_sum_counts (keys : List Text) :
    UInt64.ofNat ((ofKeys keys).toList.map (·.2.toNat)).sum = UInt64.ofNat keys.length := by
  rw [← sum_counts_ofKeys keys]
  have h : ∀ t ∈ (ofKeys keys).toList, t.2 = UInt64.ofNat (keys.count t.1) :=
    fun _ => count_of_mem_ofKeys
  generalize (ofKeys keys).toList = ts at h
  induction ts with
  | nil => rfl
  | cons t ts ih =>
    rw [List.map_cons, List.sum_cons, List.map_cons, List.sum_cons, UInt64.ofNat_add,
      UInt64.ofNat_add, UInt64.ofNat_toNat, h t List.mem_cons_self,
      ih fun t ht => h t (List.mem_cons_of_mem _ ht)]

/-- No count wraps round if there are fewer than `2 ^ 64` keys to count. -/
theorem sum_counts_eq_length {keys : List Text} (h : keys.length < 2 ^ 64) :
    ((ofKeys keys).toList.map (·.2.toNat)).sum = keys.length := by
  rw [← sum_counts_ofKeys keys]
  congr 1
  apply List.map_congr_left
  intro t ht
  rw [count_of_mem_ofKeys ht]
  exact UInt64.toNat_ofNat_of_lt' (Nat.lt_of_le_of_lt List.count_le_length h)

end Frequency

/-! ## Runs of a counter -/

namespace Counter

/-- What can happen to a counter. -/
inductive Event where
  | add (e : Entry)
  | decodeError
  | reset

def apply (c : Counter) : Event → Counter
  | .add e => c.add e
  | .decodeError => c.addDecodeError
  | .reset => c.reset

def run (c : Counter) (es : List Event) : Counter := es.foldl apply c

/-- A run in two parts is the second part from where the first one ended. -/
theorem run_append (c : Counter) (es fs : List Event) : c.run (es ++ fs) = (c.run es).run fs :=
  List.foldl_append

namespace Event

def isReset : Event → Bool
  | .reset => true
  | _ => false

def isDecodeError : Event → Bool
  | .decodeError => true
  | _ => false

def entry? : Event → Option Entry
  | .add e => some e
  | _ => none

end Event

/-- The part of a run after its last reset. -/
def sinceReset (es : List Event) : List Event := es.rtakeWhile fun e => !e.isReset

/-- The entries added since the last reset. -/
def added (es : List Event) : List Entry := (sinceReset es).filterMap Event.entry?

/-- How many decode errors there were since the last reset. -/
def errors (es : List Event) : Nat := (sinceReset es).countP Event.isDecodeError

/-- The keys under which entries are counted. -/
def keys (a : Attribute) (entries : List Entry) : List Text :=
  (entries.map a.key).filter fun key => !key.isEmpty

section

variable (es : List Event) (e : Entry)

/-- An entry that is added is one more thing since the last reset. -/
theorem sinceReset_add : sinceReset (es ++ [.add e]) = sinceReset es ++ [.add e] :=
  List.rtakeWhile_concat_pos _ _ _ rfl

/-- So is a line that cannot be decoded. -/
theorem sinceReset_decodeError :
    sinceReset (es ++ [.decodeError]) = sinceReset es ++ [.decodeError] :=
  List.rtakeWhile_concat_pos _ _ _ rfl

/-- Nothing has happened since a reset that has just been made. -/
theorem sinceReset_reset : sinceReset (es ++ [.reset]) = [] :=
  List.rtakeWhile_concat_neg _ _ _ (by simp [Event.isReset])

/-- An entry that is added stands behind those added before. -/
@[simp] theorem added_add : added (es ++ [.add e]) = added es ++ [e] := by
  simp [added, sinceReset_add, Event.entry?]

@[simp] theorem added_decodeError : added (es ++ [.decodeError]) = added es := by
  simp [added, sinceReset_decodeError, Event.entry?]

/-- Nothing is left of what was added before a reset. -/
@[simp] theorem added_reset : added (es ++ [.reset]) = [] := by simp [added, sinceReset_reset]

@[simp] theorem errors_add : errors (es ++ [.add e]) = errors es := by
  simp [errors, sinceReset_add, Event.isDecodeError]

/-- A line that could not be decoded is one more error. -/
@[simp] theorem errors_decodeError : errors (es ++ [.decodeError]) = errors es + 1 := by
  simp [errors, sinceReset_decodeError, Event.isDecodeError]

/-- A reset forgets the errors. -/
@[simp] theorem errors_reset : errors (es ++ [.reset]) = 0 := by simp [errors, sinceReset_reset]

end

/-- An empty key is not counted. -/
theorem represents_tally {c : Counts} {a : Attribute} {entries : List Entry}
    (h : c.Represents (Frequency.ofKeys (keys a entries))) (e : Entry) :
    (tally (a.key e) c).Represents (Frequency.ofKeys (keys a (entries ++ [e]))) := by
  have hkeys : keys a (entries ++ [e]) =
      keys a entries ++ if (a.key e).isEmpty then [] else [a.key e] := by
    rw [keys, List.map_append, List.filter_append, List.map_singleton, List.filter_singleton, keys]
    cases (a.key e).isEmpty <;> rfl
  rw [tally, hkeys]
  cases (a.key e).isEmpty with
  | true =>
    simp only [if_true, List.append_nil]
    exact h
  | false =>
    simp only [Bool.false_eq_true, if_false, Frequency.ofKeys_concat]
    exact h.add (a.key e) 1

/-- A counter recalls a run if its totals count what happened since the last reset, and its shards
the keys of the entries. -/
structure Recalls (c : Counter) (es : List Event) : Prop where
  entries : c.entries = UInt64.ofNat (added es).length
  decodeErrors : c.decodeErrors = UInt64.ofNat (errors es)
  counts (a : Attribute) : (c.counts a).Represents (Frequency.ofKeys (keys a (added es)))

namespace Recalls

variable {c : Counter} {es : List Event}

/-- A new counter has seen nothing. -/
theorem create (hash : Text → UInt64) (shards : Nat) : Recalls (create hash shards) [] where
  entries := rfl
  decodeErrors := rfl
  counts a := by cases a <;> exact Counts.represents_create hash shards

/-- The counter recalls an entry that is added. -/
theorem add (h : Recalls c es) (e : Entry) : Recalls (c.add e) (es ++ [.add e]) where
  entries := by
    rw [added_add, List.length_append, UInt64.ofNat_add, ← h.entries]
    rfl
  decodeErrors := by
    rw [errors_add]
    exact h.decodeErrors
  counts a := by
    rw [counts_add, added_add]
    exact represents_tally (h.counts a) e

/-- The counter recalls a line that cannot be decoded. -/
theorem decodeError (h : Recalls c es) :
    Recalls c.addDecodeError (es ++ [.decodeError]) where
  entries := by
    rw [added_decodeError]
    exact h.entries
  decodeErrors := by
    rw [errors_decodeError, UInt64.ofNat_add, ← h.decodeErrors]
    rfl
  counts a := by
    rw [counts_addDecodeError, added_decodeError]
    exact h.counts a

/-- After a reset nothing is recalled. -/
theorem reset (c : Counter) (es : List Event) : Recalls c.reset (es ++ [.reset]) where
  entries := by
    rw [added_reset]
    rfl
  decodeErrors := by
    rw [errors_reset]
    rfl
  counts a := by
    rw [counts_reset, added_reset]
    exact Counts.represents_clear _

/-- Whatever happens to a counter, it goes on recalling. -/
theorem apply (h : Recalls c es) (e : Event) : Recalls (c.apply e) (es ++ [e]) := by
  cases e with
  | add e => exact h.add e
  | decodeError => exact h.decodeError
  | reset => exact .reset c es

end Recalls

/-- A counter recalls the whole of its run. -/
theorem recalls_run (hash : Text → UInt64) (shards : Nat) (es : List Event) :
    Recalls ((create hash shards).run es) es := by
  induction es using List.reverseRecOn with
  | nil => exact .create hash shards
  | append_singleton es e ih => rw [run_append]; exact ih.apply e

/-! ## The counts -/

/-- The keys of some entries are their values, but for the empty one. -/
theorem mem_keys {a : Attribute} {entries : List Entry} {key : Text} :
    key ∈ keys a entries ↔ key ≠ [] ∧ key ∈ entries.map a.key := by
  rw [keys, List.mem_filter, and_comm]
  simp

/-- A key is counted once for each entry that has it. -/
theorem count_keys {key : Text} (h : key ≠ []) (a : Attribute) (entries : List Entry) :
    (keys a entries).count key = entries.countP (a.key · = key) := by
  have hkey : (!key.isEmpty) = true := by simpa using h
  rw [keys, List.count_filter (p := fun key : Text => !key.isEmpty) hkey, List.count,
    List.countP_map]
  congr 1
  funext e
  exact Bool.beq_eq_decide_eq _ _

/-- As many keys are counted as there are entries with one. -/
theorem length_keys (a : Attribute) (entries : List Entry) :
    (keys a entries).length = entries.countP (a.key · ≠ []) := by
  rw [keys, ← List.countP_eq_length_filter, List.countP_map]
  congr 1
  funext e
  change (!(a.key e).isEmpty) = decide (a.key e ≠ [])
  cases a.key e <;> rfl

/-- A count after a run is the number of entries with that key since the last reset, modulo `2 ^
64`. -/
theorem getElem?_merged_run (hash : Text → UInt64) (shards : Nat) (es : List Event) (a : Attribute)
    (key : Text) :
    ((((create hash shards).run es).counts a).merged)[key]? =
      if key ≠ [] ∧ key ∈ (added es).map a.key then
        some (UInt64.ofNat ((added es).countP (a.key · = key)))
      else none := by
  rw [((recalls_run hash shards es).counts a).merged_eq, Frequency.getElem?_ofKeys]
  simp only [mem_keys]
  split
  case isTrue h => rw [count_keys h.1]
  case isFalse => rfl

/-- A counter counts the entries and the decode errors since the last reset, and of each attribute
how many entries gave a key; the empty key is left out.  Numbers are modulo `2 ^ 64`.  So the counts
of an attribute add up to the number of entries that have it, which is never more than the total. -/
theorem merged_eq_plain_counts (hash : Text → UInt64) (shards : Nat) (es : List Event) :
    let c := (create hash shards).run es
    c.entries = UInt64.ofNat (added es).length ∧ c.decodeErrors = UInt64.ofNat (errors es) ∧
    ∀ a : Attribute,
      let merged := (c.counts a).merged
      let sum := (merged.toList.map (·.2.toNat)).sum
      (∀ key, merged[key]? =
        if key ≠ [] ∧ key ∈ (added es).map a.key then
          some (UInt64.ofNat ((added es).countP (a.key · = key)))
        else none) ∧
      UInt64.ofNat sum = UInt64.ofNat ((added es).countP (a.key · ≠ [])) ∧
      (added es).countP (a.key · ≠ []) ≤ (added es).length ∧
      ((added es).length < 2 ^ 64 →
        sum = (added es).countP (a.key · ≠ []) ∧ sum ≤ c.entries.toNat) := by
  intro c
  have hr : Recalls c es := recalls_run hash shards es
  refine ⟨hr.entries, hr.decodeErrors, fun a => ?_⟩
  intro merged sum
  have hm : merged = Frequency.ofKeys (keys a (added es)) := (hr.counts a).merged_eq
  have hsum : sum = ((Frequency.ofKeys (keys a (added es))).toList.map (·.2.toNat)).sum := by
    rw [← hm]
  refine ⟨fun key => ?_, ?_, List.countP_le_length, fun hlt => ?_⟩
  · exact getElem?_merged_run hash shards es a key
  · rw [hsum, Frequency.ofNat_sum_counts, length_keys]
  · have hle : (keys a (added es)).length ≤ (added es).length := by
      rw [length_keys]
      exact List.countP_le_length
    have hentries : c.entries.toNat = (added es).length := by
      rw [hr.entries]
      exact UInt64.toNat_ofNat_of_lt' hlt
    rw [hsum, Frequency.sum_counts_eq_length (by omega), hentries]
    exact ⟨length_keys a _, hle⟩

/-- An entry with a reason, and one that is no object and so has none. -/
theorem merged_eq_plain_counts_of_shapes :
    let es : List Event :=
      [.add (.object [(utf8 "reason", .text (utf8 "Rewrite")), (utf8 "client", .object [])]),
        .decodeError, .add (.text (utf8 "Rewrite"))]
    let c := (create (fun key => UInt64.ofNat key.length) 2).run es
    let sum := ((c.counts .reasons).merged.toList.map (·.2.toNat)).sum
    (added es).length < 2 ^ 64 ∧ sum = 1 ∧ sum ≤ c.entries.toNat := by
  intro es c sum
  have h : (added es).length < 2 ^ 64 := by decide
  obtain ⟨-, -, hc⟩ := merged_eq_plain_counts (fun key => UInt64.ofNat key.length) 2 es
  obtain ⟨-, -, -, hsum⟩ := hc .reasons
  exact ⟨h, hsum h⟩

end Counter

end QueryStats
