import QueryStats.Config
import QueryStats.Proofs.Bodies

/-!
# Configurations key by key

A configuration is what it holds under each of its keys.  Parameters change what is held under their
own keys, where they are settings, and nothing else.
-/

namespace QueryStats

namespace Setting

/-- The key under which a setting is read. -/
def key : Setting → Text
  | file _ => utf8 "file"
  | follow _ => utf8 "follow"
  | workers _ => utf8 "workers"
  | capacity _ => utf8 "qcap"
  | history _ => utf8 "history_elements"
  | bucketSeconds _ => utf8 "bucket_seconds"
  | shards _ => utf8 "shards"
  | topDefault _ => utf8 "top_default"
  | logFile _ => utf8 "log_file"

/-- A reader yields settings of its own key. -/
theorem key_of_mem_readers {key : Text} {reader : Text → Option Setting}
    (h : (key, reader) ∈ readers) {v : Text} {s : Setting} (hs : reader v = some s) :
    s.key = key := by
  have hall : ∀ r ∈ readers, ∀ v s, r.2 v = some s → s.key = r.1 := by
    simp only [readers, List.forall_mem_cons]
    refine ⟨?_, ?_, ?_, ?_, ?_, ?_, ?_, ?_, ?_, by simp⟩ <;> intro v s hs
    · exact Option.some.inj hs ▸ rfl
    · exact Option.some.inj hs ▸ rfl
    · obtain ⟨b, -, rfl⟩ := Option.map_eq_some_iff.1 hs
      rfl
    · obtain ⟨n, -, hn⟩ := Option.bind_eq_some_iff.1 hs
      split at hn
      · exact Option.some.inj hn ▸ rfl
      · exact absurd hn (by simp)
    all_goals
      obtain ⟨n, -, rfl⟩ := Option.map_eq_some_iff.1 hs
      rfl
  exact hall (key, reader) h v s hs

/-- A pair is read as a setting of its key. -/
theorem key_of_read? {p : Text × Text} {s : Setting} (h : read? p = some s) : s.key = p.1 := by
  rw [read?, read] at h
  cases hl : readers.lookup p.1 with
  | none => simp [hl, Except.toOption] at h
  | some reader =>
    cases hs : reader p.2 with
    | none => simp [hl, hs, Except.toOption] at h
    | some s' =>
      have hss : s' = s := by simpa [hl, hs, Except.toOption] using h
      obtain ⟨front, back, hmem, -⟩ := List.lookup_eq_some_iff.1 hl
      rw [← hss]
      exact key_of_mem_readers (by rw [hmem]; simp) hs

end Setting

namespace Config

/-- All that a configuration holds, as settings. -/
def settings (c : Config) : List Setting :=
  [.file c.file, .follow c.follow, .workers c.workers, .capacity c.capacity, .history c.history,
    .bucketSeconds c.bucketSeconds, .shards c.shards, .topDefault c.topDefault, .logFile c.logFile]

/-- What a configuration holds under a key. -/
def get? (c : Config) (key : Text) : Option Setting := c.settings.find? (·.key = key)

/-- A setting replaces the one under its key and no other. -/
theorem get?_put (c : Config) (s : Setting) (key : Text) :
    (c.put s).get? key = if s.key = key then some s else c.get? key := by
  by_cases h : s.key = key
  · subst h
    cases s <;> simp [get?, settings, put, Setting.key]
  · rw [if_neg h]
    cases s <;> simp only [Setting.key] at h <;>
      simp only [get?, settings, put, List.find?_cons] <;> simp [Setting.key, h]

/-- A configuration is what is stored under its keys. -/
theorem ext_get? {c d : Config} (h : ∀ key, c.get? key = d.get? key) : c = d := by
  obtain ⟨file, follow, workers, capacity, history, bucketSeconds, shards, topDefault, logFile⟩ := c
  have hfile := h (utf8 "file")
  have hfollow := h (utf8 "follow")
  have hworkers := h (utf8 "workers")
  have hcapacity := h (utf8 "qcap")
  have hhistory := h (utf8 "history_elements")
  have hbucketSeconds := h (utf8 "bucket_seconds")
  have hshards := h (utf8 "shards")
  have htopDefault := h (utf8 "top_default")
  have hlogFile := h (utf8 "log_file")
  simp [get?, settings, Setting.key] at *
  simp [*]

/-- Parameters one to a key: each counts where it is a setting, and under its key only. -/
theorem get?_apply {ps : List (Text × Text)} (h : (ps.map (·.1)).Nodup) (c : Config) (key : Text) :
    (c.apply ps).get? key =
      ((ps.lookup key).bind fun v => Setting.read? (key, v)).or (c.get? key) := by
  induction ps generalizing c with
  | nil => rfl
  | cons p ps ih =>
    obtain ⟨k, v⟩ := p
    obtain ⟨hk, hps⟩ := List.nodup_cons.1 h
    have hcons : c.apply ((k, v) :: ps) =
        ((Setting.read? (k, v)).elim c c.put).apply ps := by
      cases hs : Setting.read? (k, v) <;> simp [apply, hs]
    rw [hcons, ih hps]
    by_cases hkey : key = k
    · subst hkey
      have hno : ps.lookup key = none := by
        rw [List.lookup_eq_none_iff]
        intro p hp
        simpa using fun he => hk (List.mem_map.2 ⟨p, hp, he.symm⟩)
      rw [hno, List.lookup_cons_self]
      cases hs : Setting.read? (key, v) with
      | none => simp [hs]
      | some s => simp [hs, get?_put, Setting.key_of_read? hs]
    · have hbeq : (key == k) = false := by simpa using hkey
      rw [List.lookup_cons, hbeq]
      cases hs : Setting.read? (k, v) with
      | none => rfl
      | some s =>
        have hne : s.key ≠ key := by
          rw [Setting.key_of_read? hs]
          exact Ne.symm hkey
        simp [get?_put, hne]

/-- The parameters of a map may come in any order. -/
theorem get?_apply_of_perm {ps : List (Text × Text)} {m : Parameters} (h : ps.Perm m.toList)
    (c : Config) (key : Text) :
    (c.apply ps).get? key = (m[key]?.bind fun v => Setting.read? (key, v)).or (c.get? key) := by
  have hnodup : (ps.map (·.1)).Nodup :=
    (h.map (·.1)).nodup_iff.2 (Parameters.nodup_keys_toList m)
  have hlookup : ps.lookup key = m[key]? := Option.ext fun v => by
    rw [Parameters.lookup_eq_some_iff_mem hnodup, h.mem_iff,
      Std.ExtTreeMap.mem_toList_iff_getElem?_eq_some]
  rw [get?_apply hnodup, hlookup]

/-- Under a key there is what the parameters have for it, or what was there before. -/
theorem get?_apply_toList (c : Config) (m : Parameters) (key : Text) :
    (c.apply m.toList).get? key = (m[key]?.bind fun v => Setting.read? (key, v)).or (c.get? key) :=
  get?_apply_of_perm (List.Perm.refl _) c key

end Config

end QueryStats
