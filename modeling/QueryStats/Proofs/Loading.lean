import QueryStats.Proofs.Assignments
import QueryStats.Proofs.Ranges

/-!
# Files of parameters

A file of parameters counts as a whole or not at all.  It cannot be loaded if it cannot be opened,
or if a line of it is neither empty nor an assignment, however many assignments stand in front; then
the configuration stays as it was.  Of a file that is loaded, a number is taken only where it is
written in digits, perhaps with a plus in front.  Values are trimmed before they are read, so that
no minus can hide behind blanks.
-/

namespace QueryStats

open Parameters (LastSays)
open Setting (Denotes)

/-- What denotes a number has no minus sign anywhere. -/
theorem Setting.Denotes.minus_notMem {t : Text} {n : Nat} (h : Denotes t n) : Byte.minus ∉ t := by
  obtain ⟨s, ds, hs, hds, rfl, -⟩ := h
  have hdigits : Byte.minus ∉ ds := fun hmem => absurd (hds.digits _ hmem) (by decide)
  cases hs with
  | none => exact hdigits
  | plus => exact List.not_mem_cons_of_ne_of_not_mem (by decide) hdigits

namespace Config

variable {c : Config} {path : Text} {content : Option Text} {m : Parameters} {q : Quantity}
  {value : Text} {n : Nat}

/-! ## What comes of a file -/

/-- What comes of a file: it cannot be opened, or its first bad line spoils it, and either is
reported and leaves the configuration alone; or it is loaded. -/
inductive Outcome (c : Config) (path : Text) : Option Text → Loaded → Prop
  | unreadable : Outcome c path none ⟨c, false, [.configUnreadable path]⟩
  | malformed {t bad : Text} {front back : List Text} :
    t.lines.map Line.body = front ++ bad :: back → (∀ l ∈ front, l = [] ∨ Byte.equals ∈ l) →
    bad ≠ [] → Byte.equals ∉ bad →
    Outcome c path (some t)
      ⟨c, false, [.invalidLine (front.length + 1) bad, .configMalformed path]⟩
  | loaded {t : Text} {m : Parameters} :
    (∀ l ∈ t.lines.map Line.body, l = [] ∨ Byte.equals ∈ l) →
    (∀ key value, m[key]? = some value ↔ LastSays (t.lines.map Line.body) key value) →
    Outcome c path (some t) ⟨(c.process m.toList).config, true, (c.process m.toList).messages⟩

/-- One of the three always comes of a file. -/
theorem outcome_load (c : Config) (path : Text) (content : Option Text) :
    Outcome c path content (c.load path content) := by
  cases content with
  | none => exact .unreadable
  | some t =>
    cases h : Parameters.ofText t with
    | error bad =>
      obtain ⟨front, back, hlines, hnumber, hne, hequals, hfront⟩ :=
        Parameters.ofLines_eq_error_iff.1 h
      have hload : c.load path (some t) =
          ⟨c, false, [.invalidLine (front.length + 1) bad.content, .configMalformed path]⟩ := by
        rw [load, Option.map_some, h, ← hnumber]
        rfl
      rw [hload]
      exact .malformed hlines hfront hne hequals
    | ok m =>
      obtain ⟨hlines, hm⟩ := Parameters.ofLines_eq_ok_iff.1 h
      have hload : c.load path (some t) =
          ⟨(c.process m.toList).config, true, (c.process m.toList).messages⟩ := by
        rw [load, Option.map_some, h, process_eq]
      rw [hload]
      exact .loaded hlines hm

/-- Nothing is loaded exactly if there is no file or a bad line in it. -/
theorem Outcome.ok_eq_false_iff {out : Loaded} (h : Outcome c path content out) :
    out.ok = false ↔ content = none ∨
      ∃ t, content = some t ∧ ∃ l ∈ t.lines.map Line.body, l ≠ [] ∧ Byte.equals ∉ l := by
  cases h with
  | unreadable => simp
  | @malformed t bad front back hlines _ hne hequals =>
    have hmem : bad ∈ t.lines.map Line.body := hlines ▸ List.mem_append_right _ List.mem_cons_self
    exact iff_of_true rfl (.inr ⟨t, rfl, bad, hmem, hne, hequals⟩)
  | loaded hlines _ =>
    refine iff_of_false nofun ?_
    rintro (hnone | ⟨t, ht, l, hl, hne, hequals⟩)
    · cases hnone
    · cases ht
      exact (hlines l hl).elim hne hequals

/-- A file that is not loaded leaves the configuration alone, and the operator reads why. -/
theorem Outcome.of_not_ok {out : Loaded} (h : Outcome c path content out) (hok : out.ok = false) :
    out.config = c ∧
      ((content = none ∧
        Message.transcript out.messages = utf8 "config: cannot open " ++ path ++ utf8 "\n") ∨
      ∃ t front bad back, content = some t ∧ t.lines.map Line.body = front ++ bad :: back ∧
        (∀ l ∈ front, l = [] ∨ Byte.equals ∈ l) ∧ bad ≠ [] ∧ Byte.equals ∉ bad ∧
        Message.transcript out.messages =
          utf8 "parse_parameters_from_body: invalid line " ++ Text.ofNat (front.length + 1)
            ++ utf8 ": " ++ bad ++ utf8 "\nconfig: malformed " ++ path ++ utf8 "\n") := by
  have hnewline : utf8 "\n" = [Byte.newline] := rfl
  cases h with
  | unreadable => exact ⟨rfl, .inl ⟨rfl, List.append_nil _⟩⟩
  | @malformed t bad front back hlines hfront hne hequals =>
    refine ⟨rfl, .inr ⟨t, front, bad, back, rfl, hlines, hfront, hne, hequals, ?_⟩⟩
    have hmalformed : utf8 "\nconfig: malformed " =
        Byte.newline :: utf8 "config: malformed " := rfl
    simp [Message.text, hnewline, hmalformed]
  | loaded => cases hok

/-! ## Numbers in a file -/

/-- A trimmed value that denotes a number within the limit is accepted, and kept. -/
theorem accepts_of_denotes (c : Config) (h : m[q.key]? = some value) (hvalue : value.isTrimmed)
    (hn : Denotes value n) (hle : n ≤ q.limit) :
    c.Accepts m (q.setting (UInt64.ofNat n)) ∧ (c.process m.toList).config.amount q = q.kept n := by
  have hlt : n < UInt64.size := Nat.lt_of_le_of_lt hle q.limit_lt
  have haccepts : c.Accepts m (q.setting (UInt64.ofNat n)) := by
    rw [← q.key_setting (UInt64.ofNat n)] at h
    refine accepts_of_read c h ?_
    rw [Quantity.key_setting]
    exact Quantity.read_of_denotes hvalue hn hle
  have hamount := haccepts.amount_eq
  rw [UInt64.toNat_ofNat_of_lt' hlt] at hamount
  exact ⟨haccepts, hamount⟩

/-- A trimmed value that denotes no number within the limit is refused. -/
theorem refuses_of_not_denotes (c : Config) (h : m[q.key]? = some value) (hvalue : value.isTrimmed)
    (hn : ∀ n, Denotes value n → q.limit < n) : c.Refuses m q.key value :=
  refuses_of_read c h (Quantity.read_of_not_denotes hvalue hn)

/-- A quantity that the map does not name keeps its amount. -/
theorem amount_of_not_mem (c : Config) (h : m[q.key]? = none) :
    (c.process m.toList).config.amount q = c.amount q := by
  refine Quantity.amount_eq_of_get? ?_
  rw [process_eq, get?_apply_toList, h]
  rfl

/-- A file is loaded as a whole or not at all.  If it cannot be opened, or a line of it is neither
empty nor has an equals sign, the configuration stays as it was, and the operator reads why.
Otherwise what its last lines say of the keys is applied; a number only if it is written in digits,
with a plus perhaps, and may be asked for, and so none that is written with a minus. -/
theorem loads_all_or_nothing (c : Config) (path : Text) (content : Option Text) :
    let loaded := c.load path content
    (loaded.ok = false ↔ content = none ∨
      ∃ t, content = some t ∧ ∃ l ∈ t.lines.map Line.body, l ≠ [] ∧ Byte.equals ∉ l) ∧
    (loaded.ok = false → loaded.config = c ∧
      ((content = none ∧
        Message.transcript loaded.messages = utf8 "config: cannot open " ++ path ++ utf8 "\n") ∨
      ∃ t front bad back, content = some t ∧ t.lines.map Line.body = front ++ bad :: back ∧
        (∀ l ∈ front, l = [] ∨ Byte.equals ∈ l) ∧ bad ≠ [] ∧ Byte.equals ∉ bad ∧
        Message.transcript loaded.messages =
          utf8 "parse_parameters_from_body: invalid line " ++ Text.ofNat (front.length + 1)
            ++ utf8 ": " ++ bad ++ utf8 "\nconfig: malformed " ++ path ++ utf8 "\n")) ∧
    ∀ t, content = some t → loaded.ok = true →
      let lines := t.lines.map Line.body
      ∃ m : Parameters, (∀ key value, m[key]? = some value ↔ LastSays lines key value) ∧
        loaded.config = (c.process m.toList).config ∧
        loaded.messages = (c.process m.toList).messages ∧
        ∀ q : Quantity,
          (∀ value, LastSays lines q.key value →
            (∀ n, Denotes value n → n ≤ q.limit →
              c.Accepts m (q.setting (UInt64.ofNat n)) ∧ loaded.config.amount q = q.kept n) ∧
            ((∀ n, Denotes value n → q.limit < n) → c.Refuses m q.key value) ∧
            (Byte.minus ∈ value → c.Refuses m q.key value)) ∧
          ((∀ value, ¬LastSays lines q.key value) → loaded.config.amount q = c.amount q) := by
  intro loaded
  have hout : Outcome c path content loaded := outcome_load c path content
  refine ⟨hout.ok_eq_false_iff, hout.of_not_ok, ?_⟩
  intro t ht hok lines
  subst ht
  clear_value loaded
  cases hout with
  | malformed => cases hok
  | @loaded t m hlines hm =>
    refine ⟨m, hm, rfl, rfl, fun q => ⟨fun value hlast => ?_, fun hno => ?_⟩⟩
    · have hvalue := hlast.isTrimmed
      have hrefuses := refuses_of_not_denotes c ((hm _ _).2 hlast) hvalue
      exact ⟨fun n => accepts_of_denotes c ((hm _ _).2 hlast) hvalue, hrefuses,
        fun hminus => hrefuses fun n hn => absurd hminus hn.minus_notMem⟩
    · refine amount_of_not_mem c (Option.eq_none_iff_forall_not_mem.2 fun value hvalue => ?_)
      exact hno value ((hm _ _).1 hvalue)

/-- Of the first file the plus seven is taken, and neither the minus one nor the number that is too
large; of the second file nothing. -/
theorem loads_all_or_nothing_of_two :
    let good := utf8 "workers = 8\nshards =\t-1 \r\ntop_default=10001\n workers= +7"
    let bad := utf8 "workers=9\n\nbroken\nshards=2\n"
    let path := utf8 "a.conf"
    let loaded := Config.load {} path (some good)
    let spoilt := Config.load {} path (some bad)
    loaded.ok = true ∧
    LastSays (good.lines.map Line.body) (utf8 "workers") (utf8 "+7") ∧ Denotes (utf8 "+7") 7 ∧
    loaded.config.amount .workers = 7 ∧
    LastSays (good.lines.map Line.body) (utf8 "shards") (utf8 "-1") ∧
    .badValue (utf8 "shards") (utf8 "-1") ∈ loaded.messages ∧
    loaded.config.amount .capacity = 65536 ∧
    (∃ l ∈ bad.lines.map Line.body, l ≠ [] ∧ Byte.equals ∉ l) ∧
    spoilt.ok = false ∧ spoilt.config = {} := by
  intro good bad path loaded spoilt
  have hworkers : LastSays (good.lines.map Line.body) Quantity.workers.key (utf8 "+7") :=
    Parameters.lookup_reverse_assignments.1 (by decide)
  have hshards : LastSays (good.lines.map Line.body) Quantity.shards.key (utf8 "-1") :=
    Parameters.lookup_reverse_assignments.1 (by decide)
  have hcapacity : ∀ value, ¬LastSays (good.lines.map Line.body) Quantity.capacity.key value :=
    fun value h => by
      have hnone : ((good.lines.map Line.body).filterMap Parameters.assignment?).reverse.lookup
          Quantity.capacity.key = none := by decide
      exact Option.some_ne_none value
        ((Parameters.lookup_reverse_assignments.2 h).symm.trans hnone)
  have hseven : Denotes (utf8 "+7") 7 :=
    ⟨utf8 "+", utf8 "7", .plus, ⟨List.all_eq_true.1 (by decide), by decide⟩, rfl, by decide⟩
  have hbad : ∃ l ∈ bad.lines.map Line.body, l ≠ [] ∧ Byte.equals ∉ l := by decide
  have hok : loaded.ok = true := by rfl
  obtain ⟨-, -, hloaded⟩ := loads_all_or_nothing {} path (some good)
  obtain ⟨m, -, -, htold, hnumbers⟩ := hloaded good rfl hok
  obtain ⟨hnone, hkept, -⟩ := loads_all_or_nothing {} path (some bad)
  have hspoilt : spoilt.ok = false := hnone.2 (.inr ⟨bad, rfl, hbad⟩)
  have hseventh := ((hnumbers .workers).1 _ hworkers).1 7 hseven (by decide)
  have hrefused := ((hnumbers .shards).1 _ hshards).2.2 (by decide)
  refine ⟨hok, hworkers, hseven, hseventh.2, hshards, ?_, (hnumbers .capacity).2 hcapacity, hbad,
    hspoilt, (hkept hspoilt).1⟩
  rw [show loaded.messages = _ from htold]
  exact hrefused.told

end Config

end QueryStats
