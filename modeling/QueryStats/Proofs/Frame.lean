import Mathlib.Logic.Function.Iterate
import QueryStats.Proofs.Quantities
import QueryStats.Proofs.Session

/-!
# What a session can change

A session asks far more than it changes.  Its only means are to start a bucket and to set the
default length of rankings; all else is as it was.
-/

namespace QueryStats

/-! ## Settings at run time -/

/-- Two configurations alike but for the default length of rankings, which can only have become one
that a configuration file could ask for. -/
structure Config.Tuned (c c' : Config) : Prop where
  others : { c' with topDefault := c.topDefault } = c
  topDefault : c'.topDefault = c.topDefault ∨ 0 ≤ c'.topDefault ∧ c'.topDefault ≤ 10000

namespace Config.Tuned

/-- What is left alone is tuned. -/
theorem refl (c : Config) : Tuned c c := ⟨rfl, .inl rfl⟩

/-- Tuning twice is tuning. -/
theorem trans {c c' c'' : Config} (h : Tuned c c') (h' : Tuned c' c'') : Tuned c c'' := by
  refine ⟨?_, ?_⟩
  · rw [← h.others, ← h'.others]
  · rcases h'.topDefault with he | hr
    · rw [he]
      exact h.topDefault
    · exact .inr hr

/-- Setting the default length within its bounds is tuning. -/
theorem of_bounds {n : Int} (h₀ : 0 ≤ n) (h₁ : n ≤ 10000) (c : Config) :
    Tuned c { c with topDefault := n } :=
  ⟨rfl, .inr ⟨h₀, h₁⟩⟩

end Config.Tuned

/-! ## Turns that change nothing -/

namespace Turn

/-- The line starts a bucket. -/
def rotates (t : Turn) : Bool := t.line.keyword == utf8 "ROTATE"

/-- A line of the block is no setting. -/
def isRejected (t : Turn) : Bool := !t.settings.all fun l => Parameters.isFine (Line.body ⟨l, true⟩)

/-- The turn starts no bucket and holds no settings to be tried. -/
def isIdle (t : Turn) : Bool := !t.rotates && (!t.line.opensBlock || t.isRejected)

/-- A turn starts a bucket exactly if its line is the command for it. -/
theorem command_eq_rotate_iff (t : Turn) : t.command = .rotate ↔ t.rotates := by
  rw [command, (Command.read_eq_iff t.line).2.1, rotates, beq_iff_eq]

end Turn

namespace Console

/-- Of all settings, the one that can be changed is kept within its bounds where it is read. -/
theorem read_mutableKey {v : Text} {s : Setting} (h : Setting.read (mutableKey, v) = .ok s) :
    ∃ n : Int, s = .topDefault n ∧ 0 ≤ n ∧ n ≤ 10000 := by
  obtain ⟨w, -, hle, rfl⟩ := Quantity.exists_number?_of_read (q := .topDefault) h
  exact ⟨w.toNat, rfl, Int.natCast_nonneg _, Int.ofNat_le.2 hle⟩

/-- Trying one parameter tunes at most. -/
theorem tuned_setOne (c : Config) (p : Text × Text) : c.Tuned (setOne c p).1 := by
  obtain ⟨key, value⟩ := p
  by_cases hkey : key = mutableKey
  · subst hkey
    cases h : Setting.read (mutableKey, value) with
    | error r =>
      simp only [setOne, if_true, h]
      exact .refl c
    | ok s =>
      obtain ⟨n, rfl, h₀, h₁⟩ := read_mutableKey h
      simp only [setOne, if_true, h]
      exact .of_bounds h₀ h₁ c
  · simp only [setOne, if_neg hkey]
    exact .refl c

/-- So does trying several, one after the other. -/
theorem tuned_setAll (c : Config) (ps : List (Text × Text)) : c.Tuned (setAll c ps).1 := by
  induction ps generalizing c with
  | nil => exact .refl c
  | cons p ps ih => exact (tuned_setOne c p).trans (ih _)

/-- So does a block of settings, refused or not. -/
theorem tuned_setBlock (c : Config) (lines : List Text) : c.Tuned (setBlock c lines).1 := by
  rw [setBlock]
  split
  · exact .refl c
  · exact tuned_setAll c _

/-- A block with a line that is no setting changes nothing. -/
theorem setBlock_of_isRejected {t : Turn} (h : t.isRejected)
    (hlines : ∀ l ∈ t.settings, Byte.newline ∉ l) (c : Config) :
    (setBlock c t.settings).1 = c := by
  have hbad : Parameters.badLine? (t.settings.map fun l => Line.body ⟨l, true⟩) ≠ none := by
    rw [Ne, Parameters.badLine?_eq_none_iff]
    simpa [Turn.isRejected] using h
  obtain ⟨bad, hbad⟩ := Option.ne_none_iff_exists'.1 hbad
  rw [setBlock, ofText_blockText hlines, Parameters.ofLines, hbad]

/-- Only the command that starts a bucket changes the statistics. -/
theorem effect_of_not_rotates {t : Turn} (h : t.rotates = false) (s : Statistics) :
    effect t.command s = s := by
  have hne : t.command ≠ .rotate := by simp [t.command_eq_rotate_iff, h]
  cases hk : t.command <;> first | rfl | exact absurd hk hne

/-! ## Runs of turns -/

/-- Turns tune the configuration at most. -/
theorem tuned_takeAll (c : Console) (ts : List Turn) : c.config.Tuned (c.takeAll ts).1.config := by
  induction ts generalizing c with
  | nil => exact .refl c.config
  | cons t ts ih =>
    have ht : c.config.Tuned (c.take t).1.config := by
      rw [config_take]
      split
      · exact tuned_setBlock c.config t.settings
      · exact .refl c.config
    exact ht.trans (ih _)

/-- Turns move the history on, once for each that starts a bucket, and leave all other
statistics. -/
theorem statistics_takeAll_rotate (c : Console) (ts : List Turn) :
    (c.takeAll ts).1.statistics =
      { c.statistics with store := Store.rotate^[ts.countP Turn.rotates] c.statistics.store } := by
  induction ts generalizing c with
  | nil => rfl
  | cons t ts ih =>
    rw [takeAll, ih]
    cases h : t.rotates with
    | false => simp [take, effect_of_not_rotates h, h]
    | true => simp [take, t.command_eq_rotate_iff.2 h, effect, h]

/-- Moving the history on does not change the totals. -/
theorem totals_iterate_rotate {α : Type} (n : Nat) (s : Store α) :
    (Store.rotate^[n] s).totals = s.totals := by
  induction n generalizing s with
  | zero => rfl
  | succ n ih => exact ih s.rotate

/-- An idle turn leaves the statistics and the configuration alone. -/
theorem take_of_isIdle {t : Turn} (h : t.isIdle) (hlines : ∀ l ∈ t.settings, Byte.newline ∉ l)
    (c : Console) : (c.take t).1.statistics = c.statistics ∧ (c.take t).1.config = c.config := by
  obtain ⟨hrotates, hblock⟩ : t.rotates = false ∧ (t.line.opensBlock = false ∨ t.isRejected) := by
    simpa [Turn.isIdle] using h
  refine ⟨effect_of_not_rotates hrotates c.statistics, ?_⟩
  rw [config_take]
  rcases hblock with hopens | hrejected
  · simp [hopens]
  · rw [setBlock_of_isRejected hrejected hlines, ite_self]

/-- Idle turns can be left out. -/
theorem takeAll_filter {c d : Console} (hs : c.statistics = d.statistics)
    (hc : c.config = d.config) {ts : List Turn}
    (hlines : ∀ t ∈ ts, ∀ l ∈ t.settings, Byte.newline ∉ l) :
    (c.takeAll ts).1.statistics = (d.takeAll (ts.filter (!·.isIdle))).1.statistics ∧
    (c.takeAll ts).1.config = (d.takeAll (ts.filter (!·.isIdle))).1.config := by
  induction ts generalizing c d with
  | nil => exact ⟨hs, hc⟩
  | cons t ts ih =>
    obtain ⟨hline, hlines⟩ := List.forall_mem_cons.1 hlines
    cases h : t.isIdle with
    | true =>
      obtain ⟨hts, htc⟩ := take_of_isIdle h hline c
      rw [List.filter_cons_of_neg (by simp [h])]
      exact ih (hts.trans hs) (htc.trans hc) hlines
    | false =>
      rw [List.filter_cons_of_pos (by simp [h])]
      exact ih (by simp [take, hs]) (by simp [take, hc]) hlines

/-! ## Sessions -/

/-- The turns that a session takes: none if the service is stopping. -/
def Takes (stopping : Bool) (input : Text) (ts : List Turn) : Prop :=
  if stopping then ts = [] else ∃ unread, Turns input.lines ts unread

/-- Every session is a list of turns. -/
theorem exists_takes (stopping : Bool) (input : Text) (s : Statistics) (c : Config) :
    ∃ ts, Takes stopping input ts ∧
      (run s c stopping input).console = (takeAll ⟨s, c, .ready⟩ ts).1.close := by
  cases stopping with
  | true => exact ⟨[], rfl, by rw [run_of_stopping]; rfl⟩
  | false =>
    obtain ⟨ts, unread, h⟩ := Turns.exists_turns input.lines
    exact ⟨ts, ⟨unread, h⟩, by rw [run_of_turns h]⟩

/-- No line of a block has a newline in it, since the input is cut at all of them. -/
theorem newline_notMem_of_takes {stopping : Bool} {input : Text} {ts : List Turn}
    (h : Takes stopping input ts) : ∀ t ∈ ts, ∀ l ∈ t.settings, Byte.newline ∉ l := by
  cases stopping with
  | true =>
    obtain rfl : ts = [] := h
    exact List.forall_mem_nil _
  | false =>
    obtain ⟨unread, h⟩ := h
    intro t ht l hl
    obtain ⟨m, hm, rfl⟩ := List.mem_map.1 hl
    refine Text.newline_notMem_content input m ?_
    rw [h.flatMap_lines]
    refine List.mem_append_left _ (List.mem_flatMap.2 ⟨t, ht, ?_⟩)
    exact List.mem_cons_of_mem _ (List.mem_of_mem_filter hm)

/-- A session leaves the counter, the totals and all of the configuration but the default length of
rankings as they were.  It moves the history on once for each line that starts a bucket, and turns
that are idle might as well not have been taken. -/
theorem changes_little (s : Statistics) (c : Config) (stopping : Bool) (input : Text) :
    let after := (run s c stopping input).console
    ∃ ts, Takes stopping input ts ∧
      after.statistics.counter = s.counter ∧
      after.statistics.store.totals = s.store.totals ∧
      after.statistics.store.view = (Store.rotate^[ts.countP Turn.rotates] s.store).view ∧
      { after.config with topDefault := c.topDefault } = c ∧
      (after.config.topDefault = c.topDefault ∨
        0 ≤ after.config.topDefault ∧ after.config.topDefault ≤ 10000) ∧
      let active := (takeAll ⟨s, c, .ready⟩ (ts.filter (!·.isIdle))).1
      after.statistics = active.statistics ∧ after.config = active.config := by
  intro after
  obtain ⟨ts, hts, hafter⟩ := exists_takes stopping input s c
  have hstatistics : after.statistics = _ :=
    (congrArg Console.statistics hafter).trans (statistics_takeAll_rotate ⟨s, c, .ready⟩ ts)
  have htuned : c.Tuned after.config := by
    rw [show after = _ from hafter]
    exact tuned_takeAll ⟨s, c, .ready⟩ ts
  refine ⟨ts, hts, ?_, ?_, ?_, htuned.others, htuned.topDefault, ?_⟩
  · rw [hstatistics]
  · rw [hstatistics]
    exact totals_iterate_rotate _ s.store
  · rw [hstatistics]
  · rw [show after = _ from hafter]
    exact takeAll_filter rfl rfl (newline_notMem_of_takes hts)

end Console

end QueryStats
