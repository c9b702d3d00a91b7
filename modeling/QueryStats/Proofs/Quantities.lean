import QueryStats.Proofs.Numerals
import QueryStats.Proofs.Settings

/-!
# Fields that hold a number

Six fields of the configuration hold a number, and all of them are read in one way: the whole value
must be a number of 64 bits, and the default length of rankings no more than 10000.
-/

namespace QueryStats

/-- A field of the configuration that holds a number. -/
inductive Quantity where
  | workers
  | capacity
  | history
  | bucketSeconds
  | shards
  | topDefault
deriving DecidableEq, Repr

namespace Quantity

def key : Quantity → Text
  | workers => utf8 "workers"
  | capacity => utf8 "qcap"
  | history => utf8 "history_elements"
  | bucketSeconds => utf8 "bucket_seconds"
  | shards => utf8 "shards"
  | topDefault => utf8 "top_default"

/-- The greatest number that is accepted. -/
def limit : Quantity → Nat
  | topDefault => 10000
  | _ => UInt64.size - 1

/-- What the field holds of a number that is accepted. -/
def kept : Quantity → Nat → Nat
  | capacity, n => max n 1
  | bucketSeconds, n => n % UInt32.size
  | _, n => n

/-- A number is kept as it is, but that a capacity of zero becomes one. -/
theorem kept_eq {q : Quantity} {n : Nat} (h : q = bucketSeconds → n < UInt32.size) :
    q.kept n = if q = capacity ∧ n = 0 then 1 else n := by
  cases q with
  | bucketSeconds => exact Nat.mod_eq_of_lt (h rfl)
  | capacity =>
    obtain rfl | hpos := Nat.eq_zero_or_pos n
    · rfl
    · simp [kept, Nat.max_eq_left hpos, Nat.ne_of_gt hpos]
  | workers | history | shards | topDefault => simp [kept]

def setting : Quantity → UInt64 → Setting
  | workers, n => .workers n
  | capacity, n => .capacity (if n = 0 then 1 else n)
  | history, n => .history n
  | bucketSeconds, n => .bucketSeconds n.toUInt32
  | shards, n => .shards n
  | topDefault, n => .topDefault n.toNat

/-- A setting has the key of its quantity. -/
@[simp] theorem key_setting (q : Quantity) (n : UInt64) : (q.setting n).key = q.key := by
  cases q <;> rfl

end Quantity

/-- The number that a field holds. -/
def Config.amount (c : Config) : Quantity → Int
  | .workers => c.workers.toNat
  | .capacity => c.capacity.toNat
  | .history => c.history.toNat
  | .bucketSeconds => c.bucketSeconds.toNat
  | .shards => c.shards.toNat
  | .topDefault => c.topDefault

namespace Quantity

open Setting (Denotes)

variable {q : Quantity} {v : Text} {w : UInt64} {n : Nat}

/-- A quantity that was put is kept. -/
theorem amount_put (c : Config) (q : Quantity) (w : UInt64) :
    (c.put (q.setting w)).amount q = q.kept w.toNat := by
  cases q with
  | workers | history | shards | topDefault => rfl
  | capacity =>
    simp only [setting, Config.put, Config.amount, kept]
    split
    case isTrue h => simp [h]
    case isFalse h =>
      have hpos : w.toNat ≠ 0 := fun hzero => h (UInt64.toNat_inj.1 hzero)
      rw [Nat.max_eq_left (Nat.pos_of_ne_zero hpos)]
  | bucketSeconds =>
    simp only [setting, Config.put, Config.amount, kept]
    rw [UInt64.toNat_toUInt32]

/-- The amount of a quantity depends on what is stored under its key only. -/
theorem amount_eq_of_get? {c d : Config} (h : c.get? q.key = d.get? q.key) :
    c.amount q = d.amount q := by
  cases q <;> simp_all [Config.amount, Config.get?, Config.settings, key, Setting.key]

/-- Every limit fits a word. -/
theorem limit_lt (q : Quantity) : q.limit < UInt64.size := by
  cases q <;> decide

/-- A word is within every limit but that of the default number of ranks. -/
theorem toNat_le (h : q ≠ .topDefault) (w : UInt64) : w.toNat ≤ q.limit := by
  cases q with
  | topDefault => exact absurd rfl h
  | workers | capacity | history | bucketSeconds | shards =>
    exact Nat.le_sub_one_of_lt w.toNat_lt_size

/-- All numbers are read in one way, but for the limit. -/
theorem exists_reader (q : Quantity) : ∃ reader, Setting.readers.lookup q.key = some reader ∧
    ∀ v, reader v = (Setting.number? v).bind fun w =>
      if w.toNat ≤ q.limit then some (q.setting w) else none := by
  have hmap : ∀ v, q ≠ .topDefault → ((Setting.number? v).map q.setting =
      (Setting.number? v).bind fun w =>
        if w.toNat ≤ q.limit then some (q.setting w) else none) := by
    intro v hq
    cases Setting.number? v with
    | none => rfl
    | some w => simp [toNat_le hq w]
  cases q with
  | topDefault => exact ⟨_, rfl, fun v => rfl⟩
  | workers | capacity | history | bucketSeconds | shards =>
    exact ⟨_, rfl, fun v => hmap v nofun⟩

/-- A number within the limit is read as a setting. -/
theorem read_of_number? (hw : Setting.number? v = some w) (h : w.toNat ≤ q.limit) :
    Setting.read (q.key, v) = .ok (q.setting w) := by
  obtain ⟨reader, hlookup, hreader⟩ := q.exists_reader
  simp only [Setting.read, hlookup, hreader, hw, Option.bind_some, if_pos h]

/-- What is no number within the limit is read as a bad value. -/
theorem read_of_not_number? (h : ∀ w, Setting.number? v = some w → q.limit < w.toNat) :
    Setting.read (q.key, v) = .error (.badValue q.key v) := by
  obtain ⟨reader, hlookup, hreader⟩ := q.exists_reader
  cases hw : Setting.number? v with
  | none => simp only [Setting.read, hlookup, hreader, hw, Option.bind_none]
  | some w =>
    have hlt := Nat.not_le.2 (h w hw)
    simp only [Setting.read, hlookup, hreader, hw, Option.bind_some, if_neg hlt]

/-- A trimmed value that denotes a number within the limit is read as a setting. -/
theorem read_of_denotes (hv : v.isTrimmed) (h : Denotes v n) (hn : n ≤ q.limit) :
    Setting.read (q.key, v) = .ok (q.setting (UInt64.ofNat n)) := by
  have hlt : n < UInt64.size := Nat.lt_of_le_of_lt hn q.limit_lt
  have hnumber : Setting.number? v = some (UInt64.ofNat n) :=
    (Setting.number?_of_isTrimmed hv).2 ⟨n, h, hlt, rfl⟩
  refine read_of_number? hnumber ?_
  rwa [UInt64.toNat_ofNat_of_lt' hlt]

/-- A trimmed value that denotes no number within the limit is read as a bad value. -/
theorem read_of_not_denotes (hv : v.isTrimmed) (h : ∀ n, Denotes v n → q.limit < n) :
    Setting.read (q.key, v) = .error (.badValue q.key v) := by
  refine read_of_not_number? fun w hw => ?_
  obtain ⟨n, hn, hlt, rfl⟩ := (Setting.number?_of_isTrimmed hv).1 hw
  rw [UInt64.toNat_ofNat_of_lt' hlt]
  exact h n hn

/-- Whatever is read as a setting was a number within the limit. -/
theorem exists_number?_of_read {s : Setting} (h : Setting.read (q.key, v) = .ok s) :
    ∃ w, Setting.number? v = some w ∧ w.toNat ≤ q.limit ∧ s = q.setting w := by
  by_contra hnone
  have hrefused : ∀ w, Setting.number? v = some w → q.limit < w.toNat := fun w hw => by
    by_contra hle
    rw [read_of_number? hw (Nat.not_lt.1 hle)] at h
    exact hnone ⟨w, hw, Nat.not_lt.1 hle, (Except.ok.inj h).symm⟩
  rw [read_of_not_number? hrefused] at h
  cases h

end Quantity

end QueryStats
