import QueryStats.Frequency
import QueryStats.Message

/-! # Counts spread over shards -/

namespace QueryStats

/-- Counts by key.  The hash of a key says in which shard it is counted, so that writers of
different keys seldom meet. -/
structure Counts where
  hash : Text → UInt64
  shards : Array Frequency
  shards_pos : 0 < shards.size

namespace Counts

def maxShards : Nat := 256

/-- The number of shards made when `requested` are asked for. -/
def shardsFor (requested : Nat) : Nat := if requested = 0 then 1 else min requested maxShards

/-- There is always a shard. -/
theorem shardsFor_pos (requested : Nat) : 0 < shardsFor requested := by
  simp only [shardsFor, maxShards]
  split <;> omega

/-- There are never more shards than allowed. -/
theorem shardsFor_le (requested : Nat) : shardsFor requested ≤ maxShards := by
  simp only [shardsFor, maxShards]
  split <;> omega

/-- A hash of the bytes of a key, each folded in by a multiplication. -/
def defaultHash (key : Text) : UInt64 :=
  key.foldl (fun h b => (h ^^^ b.toUInt64) * 0x100000001b3) 0xcbf29ce484222325

def create (hash : Text → UInt64) (requested : Nat) : Counts where
  hash := hash
  shards := Array.replicate (shardsFor requested) ∅
  shards_pos := by simpa using shardsFor_pos requested

/-- The shard that counts a key. -/
def shardOf (c : Counts) (key : Text) : Fin c.shards.size :=
  ⟨(c.hash key).toNat % c.shards.size, Nat.mod_lt _ c.shards_pos⟩

def add (key : Text) (n : UInt64) (c : Counts) : Counts where
  hash := c.hash
  shards := c.shards.modify (c.shardOf key) (Frequency.add key n)
  shards_pos := by simpa using c.shards_pos

def clear (c : Counts) : Counts where
  hash := c.hash
  shards := c.shards.map fun _ => ∅
  shards_pos := by simpa using c.shards_pos

/-- The counts of all shards together. -/
def merged (c : Counts) : Frequency :=
  c.shards.foldl (fun f shard => f.addAll shard.toList) ∅

/-- The number of counts that a merge goes through. -/
def entries (c : Counts) : Nat := c.shards.foldl (fun n shard => n + shard.size) 0

/-- A merge of more counts than this is reported. -/
def largeMerge : Nat := 100000

/-- What is reported when the shards are merged. -/
def notices (c : Counts) : List Message :=
  if largeMerge < c.entries then [.largeMerge c.entries] else []

@[simp] theorem hash_add (key : Text) (n : UInt64) (c : Counts) : (c.add key n).hash = c.hash := rfl
@[simp] theorem hash_clear (c : Counts) : c.clear.hash = c.hash := rfl
@[simp] theorem size_add (key : Text) (n : UInt64) (c : Counts) :
    (c.add key n).shards.size = c.shards.size := by simp [add]
@[simp] theorem size_clear (c : Counts) : c.clear.shards.size = c.shards.size := by simp [clear]
@[simp] theorem size_create (hash : Text → UInt64) (requested : Nat) :
    (create hash requested).shards.size = shardsFor requested := by simp [create]

end Counts

end QueryStats
