import QueryStats.Parameters
import QueryStats.Proofs.Lines
import QueryStats.Proofs.Trimming

/-!
# Parameters written and read back

Parameters can be written in many ways: in any order, with blanks around keys and values, with
empty lines and with either kind of line end.  All of them read back as the same parameters.  Not
every map can be written, but those that were read can.
-/

namespace QueryStats

namespace Parameters

/-! ## Assignments -/

/-- A key and a value that can be told apart on a line, and from the blanks around them. -/
structure Clean (p : Text × Text) : Prop where
  equals : Byte.equals ∉ p.1
  newlines : Byte.newline ∉ p.1 ∧ Byte.newline ∉ p.2
  trimmed : p.1.isTrimmed ∧ p.2.isTrimmed

/-- Blanks that do not end a line. -/
def IsPadding (t : Text) : Prop := ∀ b ∈ t, Byte.isBlank b ∧ b ≠ Byte.newline

instance : DecidablePred IsPadding := fun t => List.decidableBAll _ t

/-- A line that says what the value of a key is, with blanks around both. -/
def Assigns (p : Text × Text) (line : Text) : Prop :=
  ∃ a b c d, IsPadding a ∧ IsPadding b ∧ IsPadding c ∧ IsPadding d ∧
    line = a ++ p.1 ++ b ++ Byte.equals :: (c ++ p.2 ++ d)

theorem isPadding_nil : IsPadding [] := by decide

theorem isPadding_carriageReturn : IsPadding [Byte.carriageReturn] := by decide

/-- Padding is made of blanks. -/
theorem IsPadding.isBlank {t : Text} (h : IsPadding t) : t.IsBlank := fun b hb => (h b hb).1

/-- Padding does not end a line. -/
theorem IsPadding.newline {t : Text} (h : IsPadding t) : Byte.newline ∉ t :=
  fun hb => (h _ hb).2 rfl

/-- Padding assigns nothing. -/
theorem IsPadding.equals {t : Text} (h : IsPadding t) : Byte.equals ∉ t :=
  fun hb => Bool.noConfusion ((h _ hb).1 : Byte.isBlank Byte.equals = true)

section

variable {p : Text × Text} {line : Text}

/-- A text is split at the first place where the byte occurs. -/
theorem splitAt?_append {l : Text} {b : UInt8} (h : b ∉ l) (r : Text) :
    Text.splitAt? b (l ++ b :: r) = some (l, r) := by
  induction l with
  | nil => simp [Text.splitAt?]
  | cons c l ih =>
    obtain ⟨hc, hl⟩ := not_or.1 (mt List.mem_cons.2 h)
    simp [Text.splitAt?, Ne.symm hc, ih hl]

/-- The key is what stands before the first equals sign, whatever follows. -/
theorem assignment?_append {l : Text} (h : Byte.equals ∉ l) (r : Text) :
    assignment? (l ++ Byte.equals :: r) = some (l.trim, r.trim) := by
  rw [assignment?, splitAt?_append h]
  rfl

/-- A line assigns something exactly if it has an equals sign. -/
theorem assignment?_eq_none_iff : assignment? line = none ↔ Byte.equals ∉ line := by
  rw [assignment?, Option.map_eq_none_iff, Text.splitAt?_eq_none_iff]

/-- A line is fine if it is empty or has an equals sign. -/
theorem isFine_iff : isFine line ↔ line = [] ∨ Byte.equals ∈ line := by
  simp [isFine]

/-- An assignment is fine. -/
theorem isFine_of_assignment? (h : assignment? line = some p) : isFine line := by
  refine isFine_iff.2 (.inr ?_)
  by_contra hno
  simp [assignment?_eq_none_iff.2 hno] at h

/-- Blanks at the edges of a line make no difference to what the line assigns. -/
theorem assignment?_padding {a b : Text} (ha : IsPadding a) (hb : IsPadding b) (line : Text) :
    assignment? (a ++ line ++ b) = assignment? line := by
  cases h : Text.splitAt? Byte.equals line with
  | none =>
    have hno : Byte.equals ∉ line := Text.splitAt?_eq_none_iff.1 h
    have hno' : Byte.equals ∉ a ++ line ++ b := by simp [ha.equals, hno, hb.equals]
    rw [assignment?_eq_none_iff.2 hno, assignment?_eq_none_iff.2 hno']
  | some q =>
    obtain ⟨hq, hno⟩ := Text.eq_append_of_splitAt? h
    have hno' : Byte.equals ∉ a ++ q.1 := by simp [ha.equals, hno]
    have hline : a ++ line ++ b = a ++ q.1 ++ Byte.equals :: (q.2 ++ b) := by simp [hq]
    rw [hline, hq, assignment?_append hno, assignment?_append hno',
      Text.trim_append_left ha.isBlank, Text.trim_append_right hb.isBlank]

/-- A carriage return at the end of a line makes no difference to what the line assigns. -/
theorem assignment?_body (l : Line) : assignment? l.body = assignment? l.content := by
  rcases l.content_eq with hl | hl <;> rw [hl]
  exact (assignment?_padding isPadding_nil isPadding_carriageReturn l.body).symm

/-- A line that assigns a clean parameter is read as that parameter. -/
theorem assignment?_of_assigns (h : Assigns p line) (hp : Clean p) : assignment? line = some p := by
  obtain ⟨a, b, c, d, ha, hb, hc, hd, rfl⟩ := h
  have hequals : Byte.equals ∉ a ++ p.1 ++ b := by simp [ha.equals, hb.equals, hp.equals]
  rw [assignment?_append hequals, Text.trim_append_right hb.isBlank,
    Text.trim_append_left ha.isBlank, Text.trim_append_right hd.isBlank,
    Text.trim_append_left hc.isBlank, Text.trim_eq_self hp.trimmed.1,
    Text.trim_eq_self hp.trimmed.2]

/-- What is read of a line without a newline is clean. -/
theorem clean_of_assignment? (h : assignment? line = some p) (hline : Byte.newline ∉ line) :
    Clean p := by
  obtain ⟨⟨l, r⟩, hsplit, rfl⟩ := Option.map_eq_some_iff.1 h
  obtain ⟨rfl, hequals⟩ := Text.eq_append_of_splitAt? hsplit
  refine ⟨mt Text.mem_of_mem_trim hequals, ⟨?_, ?_⟩, Text.isTrimmed_trim l, Text.isTrimmed_trim r⟩
  · exact mt Text.mem_of_mem_trim fun hl => hline (List.mem_append_left _ hl)
  · exact mt Text.mem_of_mem_trim fun hr =>
      hline (List.mem_append_right _ (List.mem_cons_of_mem _ hr))

/-- Padding at the end of a line does not change what it assigns. -/
theorem Assigns.append {t : Text} (h : Assigns p line) (ht : IsPadding t) :
    Assigns p (line ++ t) := by
  obtain ⟨a, b, c, d, ha, hb, hc, hd, rfl⟩ := h
  exact ⟨a, b, c, d ++ t, ha, hb, hc, fun x hx => (List.mem_append.1 hx).elim (hd x) (ht x),
    by simp⟩

/-- A line that assigns a clean parameter has no newline in it. -/
theorem Assigns.newline (h : Assigns p line) (hp : Clean p) : Byte.newline ∉ line := by
  obtain ⟨a, b, c, d, ha, hb, hc, hd, rfl⟩ := h
  have hne : Byte.newline ≠ Byte.equals := by decide
  simp [ha.newline, hb.newline, hc.newline, hd.newline, hp.newlines, hne]

end

/-! ## Written parameters -/

/-- What may stand at the end of a line. -/
def lineEnds : List Text := [[Byte.newline], [Byte.carriageReturn, Byte.newline]]

/-- Assignments written one to a line, with empty lines between them.  The last line need not
end. -/
inductive Written : List (Text × Text) → Text → Prop where
  | nil : Written [] []
  | empty {ps : List (Text × Text)} {e t : Text} :
    e ∈ lineEnds → Written ps t → Written ps (e ++ t)
  | line {p : Text × Text} {ps : List (Text × Text)} {l e t : Text} :
    Assigns p l → e ∈ lineEnds → Written ps t → Written (p :: ps) (l ++ e ++ t)
  | last {p : Text × Text} {l : Text} : Assigns p l → Written [p] l

/-- A text that gives each key of a map its value, once and in any order. -/
def Renders (m : Parameters) (t : Text) : Prop := ∃ ps, ps.Perm m.toList ∧ Written ps t

/-- Parameters in the order of their keys and without any blanks. -/
def render (m : Parameters) : Text :=
  m.toList.flatMap fun p => p.1 ++ Byte.equals :: p.2 ++ [Byte.newline]

/-- One line for each parameter is a way to write a map. -/
theorem renders_render (m : Parameters) : Renders m (render m) := by
  refine ⟨m.toList, .refl _, ?_⟩
  rw [render]
  induction m.toList with
  | nil => exact .nil
  | cons p ps ih =>
    have hp : Assigns p (p.1 ++ Byte.equals :: p.2) :=
      ⟨[], [], [], [], isPadding_nil, isPadding_nil, isPadding_nil, isPadding_nil, by simp⟩
    exact .line hp List.mem_cons_self ih

/-! ## Reading -/

/-- Of numbered lines, only the lines matter to what is said of all of them. -/
theorem forall_mem_zipIdx {P : Text → Prop} {lines : List Text} {n : Nat} :
    (∀ l ∈ lines.zipIdx n, P l.1) ↔ ∀ l ∈ lines, P l := by
  rw [← List.forall_mem_map, List.zipIdx_map_fst]

/-- No line is bad exactly if all of them are fine. -/
theorem badLine?_eq_none_iff {lines : List Text} :
    badLine? lines = none ↔ ∀ l ∈ lines, isFine l := by
  rw [badLine?, Option.map_eq_none_iff, List.find?_eq_none, ← forall_mem_zipIdx (n := 1)]
  simp

/-- A carriage return at the end of a line makes no difference to what the line assigns. -/
theorem filterMap_body (ls : List Line) :
    (ls.map Line.body).filterMap assignment? = (ls.map Line.content).filterMap assignment? := by
  rw [List.filterMap_map, List.filterMap_map]
  exact congrArg (List.filterMap · ls) (funext assignment?_body)

/-- Lines are read if each of them is fine. -/
theorem ofLines_eq_ok_iff_isFine {lines : List Text} {m : Parameters} :
    ofLines lines = .ok m ↔
      (∀ l ∈ lines, isFine l) ∧ ofPairs (lines.filterMap assignment?) = m := by
  rw [ofLines, ← badLine?_eq_none_iff]
  cases badLine? lines <;> simp

/-- A text is read as a map exactly if its lines are fine and assign the map. -/
theorem ofText_eq_ok_iff {t : Text} {m : Parameters} :
    ofText t = .ok m ↔ (∀ l ∈ t.lines, isFine l.body) ∧
      ofPairs ((t.lines.map Line.content).filterMap assignment?) = m := by
  rw [ofText, ofLines_eq_ok_iff_isFine, List.forall_mem_map, filterMap_body]

/-- What a line end leaves of itself at the end of its line. -/
theorem lines_append_lineEnd {l e : Text} (hl : Byte.newline ∉ l) (he : e ∈ lineEnds) (t : Text) :
    ∃ r, IsPadding r ∧ (Line.mk r true).body = [] ∧
      (l ++ e ++ t).lines = ⟨l ++ r, true⟩ :: t.lines := by
  rcases List.mem_cons.1 he with rfl | he
  · refine ⟨[], isPadding_nil, rfl, ?_⟩
    simpa using Text.lines_append_cons_newline hl t
  · obtain rfl := List.mem_singleton.1 he
    refine ⟨[Byte.carriageReturn], isPadding_carriageReturn, rfl, ?_⟩
    have hl' : Byte.newline ∉ l ++ [Byte.carriageReturn] := by
      rw [List.mem_append, List.mem_singleton]
      exact not_or.2 ⟨hl, by decide⟩
    simpa using Text.lines_append_cons_newline hl' t

/-- A line that assigns a clean parameter is fine and is read as it, with or without its newline. -/
theorem Assigns.reads {p : Text × Text} {line : Text} (h : Assigns p line) (hp : Clean p)
    (terminated : Bool) :
    isFine (Line.mk line terminated).body ∧ assignment? line = some p := by
  have hline := assignment?_of_assigns h hp
  exact ⟨isFine_of_assignment? ((assignment?_body _).trans hline), hline⟩

/-- Assignments are read in the order in which they were written. -/
theorem Written.reads {ps : List (Text × Text)} {t : Text} (h : Written ps t)
    (hps : ∀ p ∈ ps, Clean p) :
    (∀ l ∈ t.lines, isFine l.body) ∧ (t.lines.map Line.content).filterMap assignment? = ps := by
  induction h with
  | nil => simp
  | @empty ps e t he _ ih =>
    obtain ⟨hfine, hpairs⟩ := ih hps
    obtain ⟨r, hr, hbody, hlines⟩ := lines_append_lineEnd (List.not_mem_nil) he t
    rw [List.nil_append, List.nil_append] at hlines
    rw [hlines]
    refine ⟨List.forall_mem_cons.2 ⟨by rw [hbody]; rfl, hfine⟩, ?_⟩
    rw [List.map_cons, List.filterMap_cons_none (assignment?_eq_none_iff.2 hr.equals), hpairs]
  | @line p ps l e t hl he _ ih =>
    obtain ⟨hp, hps⟩ := List.forall_mem_cons.1 hps
    obtain ⟨hfine, hpairs⟩ := ih hps
    obtain ⟨r, hr, -, hlines⟩ := lines_append_lineEnd (hl.newline hp) he t
    obtain ⟨hlfine, hlpair⟩ := (hl.append hr).reads hp true
    rw [hlines]
    refine ⟨List.forall_mem_cons.2 ⟨hlfine, hfine⟩, ?_⟩
    rw [List.map_cons, List.filterMap_cons_some hlpair, hpairs]
  | @last p l hl =>
    have hp := hps p List.mem_cons_self
    obtain ⟨hlfine, hlpair⟩ := hl.reads hp false
    have hne : l ≠ [] := by
      rintro rfl
      simp [assignment?, Text.splitAt?] at hlpair
    rw [Text.lines_of_newline_notMem (hl.newline hp) hne]
    exact ⟨List.forall_mem_singleton.2 hlfine, List.filterMap_cons_some hlpair⟩

/-! ## Maps -/

/-- Where no key comes twice, every pair can be looked up. -/
theorem lookup_eq_some_iff_mem {ps : List (Text × Text)} (h : (ps.map (·.1)).Nodup) {k v : Text} :
    ps.lookup k = some v ↔ (k, v) ∈ ps := by
  induction ps with
  | nil => simp
  | cons p ps ih =>
    obtain ⟨key, value⟩ := p
    obtain ⟨hkey, hps⟩ := List.nodup_cons.1 h
    by_cases hk : k = key
    · subst hk
      have hno : (k, v) ∉ ps := fun hmem => hkey (List.mem_map.2 ⟨_, hmem, rfl⟩)
      simp [hno, eq_comm]
    · have hbeq : (k == key) = false := by simpa using hk
      simp [List.lookup_cons, hbeq, hk, ih hps]

/-- A map has each key once. -/
theorem nodup_keys_toList (m : Parameters) : (m.toList.map (·.1)).Nodup := by
  rw [Std.ExtTreeMap.map_fst_toList_eq_keys]
  exact Std.ExtTreeMap.nodup_keys

/-- The pairs of a map bring it back in any order. -/
theorem ofPairs_of_perm {ps : List (Text × Text)} {m : Parameters} (h : ps.Perm m.toList) :
    ofPairs ps = m := by
  have hr : ps.reverse.Perm m.toList := (List.reverse_perm ps).trans h
  have hnodup : (ps.reverse.map (·.1)).Nodup :=
    (hr.map (·.1)).nodup_iff.2 (nodup_keys_toList m)
  refine Std.ExtTreeMap.ext_getElem? fun k => Option.ext fun v => ?_
  rw [getElem?_ofPairs, lookup_eq_some_iff_mem hnodup, hr.mem_iff,
    Std.ExtTreeMap.mem_toList_iff_getElem?_eq_some]

/-- A map of pairs has no pair that was not among them. -/
theorem mem_of_mem_toList_ofPairs {ps : List (Text × Text)} {p : Text × Text}
    (h : p ∈ (ofPairs ps).toList) : p ∈ ps := by
  have hlookup := Std.ExtTreeMap.mem_toList_iff_getElem?_eq_some.1 h
  rw [getElem?_ofPairs] at hlookup
  obtain ⟨front, back, heq, -⟩ := List.lookup_eq_some_iff.1 hlookup
  rw [← List.mem_reverse, heq]
  exact List.mem_append_right _ List.mem_cons_self

/-- Whatever was read can be written. -/
theorem clean_of_ofText {t : Text} {m : Parameters} (h : ofText t = .ok m) :
    ∀ p ∈ m.toList, Clean p := by
  intro p hp
  obtain ⟨-, rfl⟩ := ofText_eq_ok_iff.1 h
  obtain ⟨line, hline, hassign⟩ := List.mem_filterMap.1 (mem_of_mem_toList_ofPairs hp)
  obtain ⟨l, hl, rfl⟩ := List.mem_map.1 hline
  exact clean_of_assignment? hassign (Text.newline_notMem_content t l hl)

/-- A clean map is read back from every way to write it. -/
theorem ofText_of_renders {m : Parameters} {t : Text} (hm : ∀ p ∈ m.toList, Clean p)
    (h : Renders m t) : ofText t = .ok m := by
  obtain ⟨ps, hps, hwritten⟩ := h
  obtain ⟨hfine, hpairs⟩ := hwritten.reads fun p hp => hm p (hps.mem_iff.1 hp)
  exact ofText_eq_ok_iff.2 ⟨hfine, hpairs ▸ ofPairs_of_perm hps⟩

/-- Every way to write a clean map reads back as that map, and there is one for every clean map.
Conversely only clean maps are read, whatever the text, so that what was read can be written and
read again. -/
theorem reads_what_is_written :
    (∀ m : Parameters, (∀ p ∈ m.toList, Clean p) →
      Renders m (render m) ∧ ∀ t, Renders m t → ofText t = .ok m) ∧
    ∀ t m, ofText t = .ok m →
      (∀ p ∈ m.toList, Clean p) ∧ ofText (render m) = ofText t ∧
      ∀ u, Renders m u → ofText u = ofText t := by
  refine ⟨fun m hm => ⟨renders_render m, fun t ht => ofText_of_renders hm ht⟩, fun t m h => ?_⟩
  have hm := clean_of_ofText h
  refine ⟨hm, ?_, fun u hu => ?_⟩
  · rw [h, ofText_of_renders hm (renders_render m)]
  · rw [h, ofText_of_renders hm hu]

/-- Two parameters with blanks, empty lines and a carriage return around them. -/
theorem reads_what_is_written_with_blanks :
    let m := ofPairs [(utf8 "a", utf8 "1"), (utf8 "b", utf8 "2=3")]
    let t := utf8 "\r\nb=2=3\r\n\n a =\t1 "
    (∀ p ∈ m.toList, Clean p) ∧ Renders m t ∧ ofText t = .ok m ∧ ofText (render m) = ofText t := by
  intro m t
  have htoList : m.toList = [(utf8 "a", utf8 "1"), (utf8 "b", utf8 "2=3")] := by decide
  have hclean : ∀ p ∈ m.toList, Clean p := by
    rw [htoList]
    simp only [List.forall_mem_cons]
    exact ⟨⟨by decide, by decide, by decide⟩, ⟨by decide, by decide, by decide⟩, by simp⟩
  have hlast : Assigns (utf8 "a", utf8 "1") (utf8 " a =\t1 ") :=
    ⟨utf8 " ", utf8 " ", utf8 "\t", utf8 " ", by decide, by decide, by decide, by decide, by decide⟩
  have hline : Assigns (utf8 "b", utf8 "2=3") (utf8 "b=2=3") :=
    ⟨[], [], [], [], isPadding_nil, isPadding_nil, isPadding_nil, isPadding_nil, by decide⟩
  have ht : Renders m t := by
    refine ⟨[(utf8 "b", utf8 "2=3"), (utf8 "a", utf8 "1")], by rw [htoList]; exact .swap .., ?_⟩
    have hwritten := Written.empty (e := [Byte.carriageReturn, Byte.newline]) (by decide)
      (.line hline (e := [Byte.carriageReturn, Byte.newline]) (by decide)
        (.empty (e := [Byte.newline]) (by decide) (.last hlast)))
    exact hwritten
  obtain ⟨hread, hwrite⟩ := reads_what_is_written
  have hm : ofText t = .ok m := (hread m hclean).2 t ht
  exact ⟨hclean, ht, hm, (hwrite t m hm).2.1⟩

end Parameters

end QueryStats
