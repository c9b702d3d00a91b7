import QueryStats.Proofs.Numerals
import QueryStats.Proofs.Overrides
import QueryStats.Proofs.Quantities

/-!
# Which numbers are stored

A field mostly holds the number that was given for it, or nothing comes of the number.  There are
two exceptions.  A minus is refused where it stands first, but not behind blanks, and the number
then wraps round; values that were read from a text have no blanks there.  A length of a bucket that
does not fit 32 bits is cut down to them.
-/

namespace QueryStats

open Json (IsDigits)

namespace Config

variable {c : Config} {m : Parameters} {q : Quantity} {t : Text}

/-- What is accepted is kept. -/
theorem Accepts.amount_eq {w : UInt64} (h : c.Accepts m (q.setting w)) :
    (c.process m.toList).config.amount q = q.kept w.toNat := by
  rw [← Quantity.amount_put c q w]
  refine Quantity.amount_eq_of_get? ?_
  have hholds := h.holds
  rw [Quantity.key_setting] at hholds
  rw [hholds, get?_put, if_pos (q.key_setting w)]

/-! ## Numbers of digits only -/

/-- A number is either refused, with the configuration as it was, or the field holds it: one in
place of a capacity of zero, and of the length of a bucket only the low 32 bits. -/
theorem digits_are_stored (c : Config) (q : Quantity) (h : IsDigits t) :
    let n := Text.toNat t
    let after := c.process [(q.key, t)]
    (q.limit < n → after = ⟨c, 0, [.badValue q.key t]⟩) ∧
    (n ≤ q.limit → after.applied = 1 ∧ after.messages = [] ∧
      (∀ key, key ≠ q.key → after.config.get? key = c.get? key) ∧
      ((q = .bucketSeconds → n < UInt32.size) →
        after.config.amount q = if q = .capacity ∧ n = 0 then 1 else n) ∧
      (q = .bucketSeconds → after.config.amount q = n % UInt32.size)) := by
  intro n after
  have hnumber := Setting.number?_of_isDigits h
  constructor
  · intro hn
    have hread : Setting.read (q.key, t) = .error (.badValue q.key t) := by
      refine Quantity.read_of_not_number? fun w hw => ?_
      rw [hnumber] at hw
      split at hw
      case isFalse => cases hw
      case isTrue hlt =>
        rw [← Option.some.inj hw, UInt64.toNat_ofNat_of_lt' hlt]
        exact hn
    simp only [after, process, List.foldl_cons, List.foldl_nil, Progress.take, hread]
    rfl
  · intro hn
    have hlt : n < UInt64.size := Nat.lt_of_le_of_lt hn q.limit_lt
    have hword : (UInt64.ofNat n).toNat = n := UInt64.toNat_ofNat_of_lt' hlt
    rw [if_pos hlt] at hnumber
    have hread := Quantity.read_of_number? hnumber (hword.symm ▸ hn)
    have hafter : after = ⟨c.put (q.setting (UInt64.ofNat n)), 1, []⟩ := by
      simp only [after, process, List.foldl_cons, List.foldl_nil, Progress.take, hread]
      rfl
    have hamount : after.config.amount q = q.kept n := by
      rw [hafter, Quantity.amount_put, hword]
    rw [hamount, hafter]
    refine ⟨rfl, rfl, fun key hkey => ?_, fun hfits => ?_, ?_⟩
    · rw [get?_put, Quantity.key_setting, if_neg hkey.symm]
    · exact_mod_cast Quantity.kept_eq hfits
    · rintro rfl
      rfl

/-- The greatest word is stored, and the number after it is refused. -/
theorem digits_are_stored_at_the_limit :
    IsDigits (utf8 "18446744073709551615") ∧ IsDigits (utf8 "18446744073709551616") ∧
    (({} : Config).process [(utf8 "shards", utf8 "18446744073709551615")]).config.amount .shards =
      18446744073709551615 ∧
    ({} : Config).process [(utf8 "shards", utf8 "18446744073709551616")] =
      ⟨{}, 0, [.badValue (utf8 "shards") (utf8 "18446744073709551616")]⟩ := by
  have hlast : IsDigits (utf8 "18446744073709551615") :=
    ⟨List.all_eq_true.1 (by decide), by decide⟩
  have hnext : IsDigits (utf8 "18446744073709551616") :=
    ⟨List.all_eq_true.1 (by decide), by decide⟩
  obtain ⟨-, -, -, hstored, -⟩ := (digits_are_stored {} .shards hlast).2 (by decide)
  exact ⟨hlast, hnext, hstored nofun, (digits_are_stored {} .shards hnext).1 (by decide)⟩

/-- A length of 4294967296 seconds is taken, and nothing is left of it. -/
theorem long_bucket_is_lost :
    let after := ({} : Config).process [(utf8 "bucket_seconds", utf8 "4294967296")]
    after = ⟨{ bucketSeconds := 0 }, 1, []⟩ ∧
      after.config.amount .bucketSeconds ≠ Text.toNat (utf8 "4294967296") := by
  decide

/-! ## Numbers with a minus -/

/-- A number with a minus is refused where the minus stands first, and so in everything that was
read from a text.  Blanks in front of the minus let it through where the number that it wraps round
to may be asked for, and then only. -/
theorem minus_is_refused_in_front {m : Parameters} {q : Quantity} {blanks rest : Text}
    (c : Config) (hblanks : Text.IsBlank blanks)
    (h : m[q.key]? = some (blanks ++ Byte.minus :: rest)) :
    let value := blanks ++ Byte.minus :: rest
    let wrapped := (UInt64.size - Text.toNat rest) % UInt64.size
    let behind := blanks ≠ [] ∧ IsDigits rest ∧ Text.toNat rest < UInt64.size ∧ wrapped ≤ q.limit
    (blanks = [] → c.Refuses m q.key value) ∧
    ((∃ t, Parameters.ofText t = .ok m) → c.Refuses m q.key value) ∧
    (¬behind → c.Refuses m q.key value) ∧
    (behind → c.Accepts m (q.setting (UInt64.ofNat wrapped)) ∧
      (c.process m.toList).config.amount q = q.kept wrapped) := by
  intro value wrapped behind
  have hword : (UInt64.ofNat wrapped).toNat = wrapped :=
    UInt64.toNat_ofNat_of_lt' (Nat.mod_lt _ (by decide))
  have hrefuses : ¬behind → c.Refuses m q.key value := by
    intro hnot
    refine refuses_of_read c h (Quantity.read_of_not_number? fun w hw => ?_)
    obtain ⟨hne, hds, hlt, rfl⟩ := (Setting.number?_of_minus hblanks).1 hw
    rw [hword]
    exact Nat.lt_of_not_le fun hle => hnot ⟨hne, hds, hlt, hle⟩
  have hfront : blanks = [] → c.Refuses m q.key value := fun hnil =>
    hrefuses fun hbehind => hbehind.1 hnil
  refine ⟨hfront, ?_, hrefuses, ?_⟩
  · rintro ⟨t, ht⟩
    have hclean := Parameters.clean_of_ofText ht _
      (Std.ExtTreeMap.mem_toList_iff_getElem?_eq_some.2 h)
    exact hfront (Text.eq_nil_of_isTrimmed_append hclean.trimmed.2 hblanks)
  · rintro ⟨hne, hds, hlt, hle⟩
    have hnumber := (Setting.number?_of_minus hblanks).2 ⟨hne, hds, hlt, rfl⟩
    have haccepts : c.Accepts m (q.setting (UInt64.ofNat wrapped)) := by
      rw [← q.key_setting (UInt64.ofNat wrapped)] at h
      refine accepts_of_read c h ?_
      rw [Quantity.key_setting]
      exact Quantity.read_of_number? hnumber (hword.symm ▸ hle)
    have hamount := haccepts.amount_eq
    rw [hword] at hamount
    exact ⟨haccepts, hamount⟩

/-- Of minus three nothing is taken; behind a blank, what wraps round to ten is. -/
theorem minus_is_refused_in_front_of_three :
    let m := Parameters.ofPairs
      [(utf8 "workers", utf8 "-3"), (utf8 "top_default", utf8 " -18446744073709551606")]
    m[Quantity.workers.key]? = some ([] ++ Byte.minus :: utf8 "3") ∧
    m[Quantity.topDefault.key]? = some ([0x20] ++ Byte.minus :: utf8 "18446744073709551606") ∧
    Config.Refuses {} m (utf8 "workers") (utf8 "-3") ∧
    (({} : Config).process m.toList).config.amount .topDefault = 10 := by
  intro m
  have hthree : m[Quantity.workers.key]? = some ([] ++ Byte.minus :: utf8 "3") := by decide
  have hten : m[Quantity.topDefault.key]? =
      some ([0x20] ++ Byte.minus :: utf8 "18446744073709551606") := by decide
  have hnone : Text.IsBlank [] := fun b hb => absurd hb List.not_mem_nil
  have hblank : Text.IsBlank [0x20] := List.forall_mem_singleton.2 rfl
  have hdigits : IsDigits (utf8 "18446744073709551606") :=
    ⟨List.all_eq_true.1 (by decide), by decide⟩
  obtain ⟨hrefused, -⟩ := minus_is_refused_in_front {} hnone hthree
  obtain ⟨-, -, -, htaken⟩ := minus_is_refused_in_front {} hblank hten
  exact ⟨hthree, hten, hrefused rfl, (htaken ⟨by decide, hdigits, by decide, by decide⟩).2⟩

/-- Minus one behind a blank is taken for the largest number of workers. -/
theorem minus_behind_blank_is_taken :
    let m := Parameters.ofPairs [(utf8 "workers", utf8 " -1")]
    ({} : Config).process m.toList = ⟨{ workers := 18446744073709551615 }, 1, []⟩ ∧
      ¬Config.Refuses {} m (utf8 "workers") (utf8 " -1") := by
  intro m
  have hprocess :
      ({} : Config).process m.toList = ⟨{ workers := 18446744073709551615 }, 1, []⟩ := by
    decide
  refine ⟨hprocess, fun h => ?_⟩
  have htold := h.told
  rw [hprocess] at htold
  exact absurd htold List.not_mem_nil

end Config

end QueryStats
