import QueryStats.Proofs.Settings

/-!
# Parameters that do not disturb each other

Parameters are taken one at a time: one that is a setting is counted and changes its field, any
other is reported.  What comes of a parameter is settled by its key and its value alone, so that
their order does not matter, taking them again changes nothing, and later parameters replace earlier
ones of the same key as long as they are settings.
-/

namespace QueryStats

namespace Config

/-! ## One parameter after the other -/

/-- How far a run over parameters has come. -/
structure Progress where
  config : Config
  /-- how many of the parameters were settings -/
  applied : Nat
  /-- what was reported of the others -/
  messages : List Message
deriving DecidableEq

namespace Progress

def take (s : Progress) (p : Text × Text) : Progress :=
  match Setting.read p with
  | .ok setting => ⟨s.config.put setting, s.applied + 1, s.messages⟩
  | .error refusal => ⟨s.config, s.applied, s.messages ++ [refusal.message]⟩

end Progress

/-- Takes some parameters in their order. -/
def process (c : Config) (ps : List (Text × Text)) : Progress := ps.foldl Progress.take ⟨c, 0, []⟩

/-- Pairs taken one after the other change the configuration, are counted and are refused, each
independently of what came before. -/
theorem foldl_take (ps : List (Text × Text)) (s : Progress) :
    ps.foldl Progress.take s =
      ⟨s.config.apply ps, s.applied + applied ps, s.messages ++ refusals ps⟩ := by
  induction ps generalizing s with
  | nil => simp [apply, applied, refusals]
  | cons p ps ih =>
    rw [List.foldl_cons, ih]
    cases h : Setting.read p with
    | ok setting =>
      simp [Progress.take, h, apply, applied, refusals, Setting.read?, Setting.refusal?,
        Except.toOption]
      omega
    | error refusal =>
      simp [Progress.take, h, apply, applied, refusals, Setting.read?, Setting.refusal?,
        Except.toOption]

/-- What a run comes to, each part by itself. -/
theorem process_eq (c : Config) (ps : List (Text × Text)) :
    c.process ps = ⟨c.apply ps, applied ps, refusals ps⟩ := by
  simp [process, foldl_take]

/-! ## The same configuration by other ways -/

/-- Another order only puts the messages in another order. -/
theorem process_of_perm {ps : List (Text × Text)} {m : Parameters} (h : ps.Perm m.toList)
    (c : Config) :
    (c.process ps).config = (c.process m.toList).config ∧
      (c.process ps).applied = (c.process m.toList).applied ∧
      (c.process ps).messages.Perm (c.process m.toList).messages := by
  simp only [process_eq]
  refine ⟨ext_get? fun key => ?_, ?_, ?_⟩
  · rw [get?_apply_of_perm h, get?_apply_toList]
  · exact (h.filterMap _).length_eq
  · exact (h.filterMap _).map _

variable {m p q : Parameters} {key value : Text}

/-- Applying the same parameters again changes nothing. -/
theorem apply_apply_self (c : Config) (m : Parameters) :
    (c.apply m.toList).apply m.toList = c.apply m.toList := by
  refine ext_get? fun key => ?_
  simp only [get?_apply_toList]
  rw [← Option.or_assoc, Option.or_self]

/-- Two configurations that differ under every key: not both of them hold a setting. -/
theorem exists_get?_ne (s : Setting) : ∃ c : Config, c.get? s.key ≠ some s := by
  by_contra h
  rw [not_exists] at h
  have hempty := not_not.1 (h {})
  have hother := not_not.1 (h ⟨[0], true, 1, 1, 1, 1, 1, 1, []⟩)
  rw [← hempty] at hother
  cases s with
  | logFile =>
    have hname : utf8 "statpulse.err.log" ≠ [] := by decide
    simp [get?, settings, Setting.key, hname.symm] at hother
  | _ => simp [get?, settings, Setting.key] at hother

/-- `q` takes over what it names: each of its values for a key of `p` is a setting if the value of
`p` is one. -/
def TakesOver (p q : Parameters) : Prop :=
  ∀ key v w, p[key]? = some v → q[key]? = some w →
    (Setting.read? (key, v)).isSome → (Setting.read? (key, w)).isSome

/-- Two maps can be applied as their union exactly if the second takes over what it names. -/
theorem apply_union_iff :
    (∀ c : Config, (c.apply p.toList).apply q.toList = c.apply (p ∪ q).toList) ↔ TakesOver p q := by
  constructor
  · intro h key v w hv hw hs
    obtain ⟨s, hs⟩ := Option.isSome_iff_exists.1 hs
    by_contra hnone
    rw [Option.not_isSome_iff_eq_none] at hnone
    -- A configuration without this setting gets it from `p` only, and loses it to `q` in the union.
    obtain ⟨c, hc⟩ := exists_get?_ne s
    have hget := congrArg (·.get? key) (h c)
    simp only [get?_apply_toList, Std.ExtTreeMap.getElem?_union, hv, hw, hs, hnone,
      Option.bind_some, Option.some_or, Option.none_or] at hget
    rw [Setting.key_of_read? hs] at hc
    exact hc hget.symm
  · intro h c
    refine ext_get? fun key => ?_
    simp only [get?_apply_toList, Std.ExtTreeMap.getElem?_union]
    cases hw : q[key]? with
    | none => simp
    | some w =>
      cases hv : p[key]? with
      | none => simp
      | some v =>
        cases hs : Setting.read? (key, w) with
        | some s => simp [hs]
        | none =>
          have hs' : Setting.read? (key, v) = none :=
            Option.not_isSome_iff_eq_none.1 fun hsome => by
              have htaken := h key v w hv hw hsome
              rw [hs] at htaken
              exact Bool.noConfusion htaken
          simp [hs, hs']

/-! ## One parameter of a map -/

/-- A parameter that comes to nothing: it is not counted, a line of the log tells the operator of
it, and the field keeps what it held. -/
structure Refuses (c : Config) (m : Parameters) (key value : Text) : Prop where
  applied : (c.process m.toList).applied = (c.process (m.erase key).toList).applied
  logged : ∃ front back : List Message,
    (c.process m.toList).messages = front ++ .badValue key value :: back ∧
    Message.transcript (c.process m.toList).messages = Message.transcript front ++
      (utf8 "config: bad value for '" ++ key ++ utf8 "': " ++ value ++ utf8 "\n") ++
      Message.transcript back
  kept : (c.process m.toList).config.get? key = c.get? key

/-- What is refused is told. -/
theorem Refuses.told {c : Config} (h : c.Refuses m key value) :
    .badValue key value ∈ (c.process m.toList).messages := by
  obtain ⟨front, back, hmessages, -⟩ := h.logged
  rw [hmessages]
  exact List.mem_append_right _ List.mem_cons_self

/-- The line for a bad value stands in the log between those of the other messages. -/
theorem transcript_badValue (front back : List Message) (key value : Text) :
    Message.transcript (front ++ .badValue key value :: back) = Message.transcript front ++
      (utf8 "config: bad value for '" ++ key ++ utf8 "': " ++ value ++ utf8 "\n") ++
      Message.transcript back := by
  have hnewline : utf8 "\n" = [Byte.newline] := rfl
  simp [Message.text, hnewline]

/-- A parameter that is taken: it is counted, nothing is said of it, and the field holds it. -/
structure Accepts (c : Config) (m : Parameters) (s : Setting) : Prop where
  applied : (c.process m.toList).applied = (c.process (m.erase s.key).toList).applied + 1
  silent : (c.process m.toList).messages.Perm (c.process (m.erase s.key).toList).messages
  holds : (c.process m.toList).config.get? s.key = some s

/-- A map without a key has the other pairs. -/
theorem mem_toList_erase {k v : Text} :
    (k, v) ∈ (m.erase key).toList ↔ k ≠ key ∧ (k, v) ∈ m.toList := by
  simp only [Std.ExtTreeMap.mem_toList_iff_getElem?_eq_some, Std.ExtTreeMap.getElem?_erase,
    Std.LawfulEqCmp.compare_eq_iff_eq, eq_comm (a := key)]
  split
  case isTrue hk => simp [hk]
  case isFalse hk => simp [hk]

/-- A map has a pair and those under the other keys. -/
theorem toList_perm_erase (h : m[key]? = some value) :
    m.toList.Perm ((key, value) :: (m.erase key).toList) := by
  have hnodup : ∀ m : Parameters, m.toList.Nodup := fun m =>
    (List.pairwise_map.1 (Parameters.nodup_keys_toList m)).imp fun hne heq =>
      hne (congrArg (·.1) heq)
  have hnot : (key, value) ∉ (m.erase key).toList := fun hmem => (mem_toList_erase.1 hmem).1 rfl
  refine (List.perm_ext_iff_of_nodup (hnodup m) (List.nodup_cons.2 ⟨hnot, hnodup _⟩)).2 ?_
  rintro ⟨k, v⟩
  rw [List.mem_cons, mem_toList_erase]
  by_cases hk : k = key
  · subst hk
    simp [Std.ExtTreeMap.mem_toList_iff_getElem?_eq_some, h, eq_comm]
  · simp [hk]

/-- A value that is read as an error is refused. -/
theorem refuses_of_read (c : Config) (h : m[key]? = some value)
    (hread : Setting.read (key, value) = .error (.badValue key value)) :
    c.Refuses m key value := by
  have hperm := toList_perm_erase h
  have hsetting : Setting.read? (key, value) = none := by
    rw [Setting.read?, hread]
    rfl
  have hrefusal : Setting.refusal? (key, value) = some (.badValue key value) := by
    rw [Setting.refusal?, hread]
  constructor
  · simp only [process_eq, applied]
    rw [(hperm.filterMap _).length_eq, List.filterMap_cons_none hsetting]
  · have hmem : .badValue key value ∈ (c.process m.toList).messages := by
      simp only [process_eq, refusals]
      refine ((hperm.filterMap _).map _).mem_iff.2 ?_
      rw [List.filterMap_cons_some hrefusal]
      exact List.mem_cons_self
    obtain ⟨front, back, hmessages⟩ := List.append_of_mem hmem
    exact ⟨front, back, hmessages, hmessages ▸ transcript_badValue front back key value⟩
  · simp only [process_eq]
    rw [get?_apply_toList, h, Option.bind_some, hsetting, Option.none_or]

/-- A value that is read as a setting is accepted. -/
theorem accepts_of_read {s : Setting} (c : Config) (h : m[s.key]? = some value)
    (hread : Setting.read (s.key, value) = .ok s) : c.Accepts m s := by
  have hperm := toList_perm_erase h
  have hsetting : Setting.read? (s.key, value) = some s := by
    rw [Setting.read?, hread]
    rfl
  have hrefusal : Setting.refusal? (s.key, value) = none := by
    rw [Setting.refusal?, hread]
  constructor
  · simp only [process_eq, applied]
    rw [(hperm.filterMap _).length_eq, List.filterMap_cons_some hsetting, List.length_cons]
  · simp only [process_eq, refusals]
    have hmessages := (hperm.filterMap Setting.refusal?).map Refusal.message
    rwa [List.filterMap_cons_none hrefusal] at hmessages
  · simp only [process_eq]
    rw [get?_apply_toList, h, Option.bind_some, hsetting, Option.some_or]

/-! ## All parameters of two maps -/

/-- The parameters of a map do not disturb each other.  Those of a second map replace them exactly
where they are settings themselves, so that both maps together do what the first and then the second
do exactly if the second has a setting for each setting of the first that it names. -/
theorem parameters_are_independent (c : Config) (p q : Parameters) :
    let run := fun (c : Config) (m : Parameters) => c.process m.toList
    (∀ ps : List (Text × Text), ps.Perm p.toList →
      (c.process ps).config = (run c p).config ∧ (c.process ps).applied = (run c p).applied ∧
        (c.process ps).messages.Perm (run c p).messages) ∧
    (∀ key, (run c p).config.get? key =
      (p[key]?.bind fun v => Setting.read? (key, v)).or (c.get? key)) ∧
    (∀ (d : Config) (ps : List (Text × Text)), (d.process ps).applied = (c.process ps).applied ∧
      (d.process ps).messages = (c.process ps).messages) ∧
    (run c p).applied + (run c p).messages.length = p.size ∧
    run (run c p).config p = run c p ∧
    ((∀ key v w, p[key]? = some v → q[key]? = some w → (Setting.read? (key, w)).isSome) →
      (run (run c p).config q).config = (run c (p ∪ q)).config) ∧
    ((∀ d : Config, (run (run d p).config q).config = (run d (p ∪ q)).config) ↔ TakesOver p q) ∧
    ∀ key, (q[key]?.bind fun w => Setting.read? (key, w)) = none →
      (run (run c p).config q).config.get? key = (run c p).config.get? key := by
  intro run
  refine ⟨fun ps hps => process_of_perm hps c, fun key => ?_, fun d ps => ?_, ?_, ?_, fun h => ?_,
    ?_, fun key hkey => ?_⟩
  · simp only [run, process_eq, get?_apply_toList]
  · simp only [process_eq, and_self]
  · simp only [run, process_eq]
    rw [applied_add_length_refusals, Std.ExtTreeMap.length_toList]
  · simp only [run, process_eq, apply_apply_self]
  · simp only [run, process_eq]
    exact apply_union_iff.2 (fun key v w hv hw _ => h key v w hv hw) c
  · simp only [run, process_eq, apply_union_iff]
  · simp only [run, process_eq]
    rw [get?_apply_toList _ q, hkey, Option.none_or]

/-- A file that sets the workers, and flags that set them again and give a bad number of shards. -/
theorem parameters_are_independent_of_two :
    let p := Parameters.ofPairs [(utf8 "workers", utf8 "2"), (utf8 "nonsense", utf8 "1")]
    let q := Parameters.ofPairs [(utf8 "workers", utf8 "3"), (utf8 "shards", utf8 "x")]
    let run := fun (c : Config) (m : Parameters) => c.process m.toList
    [(utf8 "workers", utf8 "2"), (utf8 "nonsense", utf8 "1")].Perm p.toList ∧
    (∀ key v w, p[key]? = some v → q[key]? = some w → (Setting.read? (key, w)).isSome) ∧
    (q[utf8 "shards"]?.bind fun w => Setting.read? (utf8 "shards", w)) = none ∧
    (Config.process {} [(utf8 "workers", utf8 "2"), (utf8 "nonsense", utf8 "1")]).config =
      (run {} p).config ∧
    (run (run {} p).config q).config = (run {} (p ∪ q)).config ∧
    (run (run {} p).config q).config.get? (utf8 "shards") =
      (run {} p).config.get? (utf8 "shards") := by
  intro p q run
  obtain ⟨horder, -, -, -, -, hunion, -, hkept⟩ := parameters_are_independent {} p q
  have hperm : [(utf8 "workers", utf8 "2"), (utf8 "nonsense", utf8 "1")].Perm p.toList := by
    decide
  have haccepted : ∀ key v w, p[key]? = some v → q[key]? = some w →
      (Setting.read? (key, w)).isSome := by
    intro key v w hv hw
    have hmem := Parameters.mem_of_mem_toList_ofPairs
      (Std.ExtTreeMap.mem_toList_iff_getElem?_eq_some.2 hw)
    rcases List.mem_cons.1 hmem with heq | hmem
    · obtain ⟨rfl, rfl⟩ := Prod.mk.inj heq
      decide
    · obtain ⟨rfl, rfl⟩ := Prod.mk.inj (List.mem_singleton.1 hmem)
      have hnone : p[utf8 "shards"]? = none := by decide
      exact absurd (hnone.symm.trans hv) nofun
  have hrefused : (q[utf8 "shards"]?.bind fun w => Setting.read? (utf8 "shards", w)) = none := by
    decide
  exact ⟨hperm, haccepted, hrefused, (horder _ hperm).1, hunion haccepted, hkept _ hrefused⟩

end Config

end QueryStats
