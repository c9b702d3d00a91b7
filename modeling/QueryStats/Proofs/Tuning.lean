import QueryStats.Proofs.Assignments
import QueryStats.Proofs.Frame
import QueryStats.Proofs.Numerals

/-!
# Settings at run time

A block of settings is refused as a whole for a line without an equals sign.  Otherwise each key it
names is answered once, in the order of the keys and for the last value that the block gives it, and
only the default length of rankings can change.
-/

namespace QueryStats

open Parameters (LastSays)
open Setting (Denotes)

namespace Console

/-! ## One parameter -/

/-- What is said of one parameter of a block: a line to the user, and to the operator one about a
bad value. -/
inductive Answers : Text × Text → Reply → Prop
  | fixed {key value : Text} : key ≠ utf8 "top_default" →
    Answers (key, value) ⟨utf8 "SET: '" ++ key ++ utf8 "' cannot be changed at runtime\n", []⟩
  | tuned {value : Text} {n : Nat} : Denotes value n → n ≤ 10000 →
    Answers (utf8 "top_default", value) ⟨utf8 "top_default = " ++ Text.ofNat n ++ utf8 "\n", []⟩
  | refused {value : Text} {ms : List Message} : (∀ n, Denotes value n → 10000 < n) →
    Message.transcript ms = utf8 "config: bad value for 'top_default': " ++ value ++ utf8 "\n" →
    Answers (utf8 "top_default", value)
      ⟨utf8 "SET: bad value for top_default: " ++ value ++ utf8 "\n", ms⟩

section

variable {value : Text} {n : Nat}

/-- A number up to 10000 is read. -/
theorem read_mutableKey_of_denotes (hvalue : value.isTrimmed) (h : Denotes value n)
    (hn : n ≤ 10000) : Setting.read (mutableKey, value) = .ok (.topDefault n) := by
  have hlt : n < UInt64.size := Nat.lt_of_le_of_lt hn (by decide)
  have hread := Quantity.read_of_denotes (q := .topDefault) hvalue h hn
  rwa [Quantity.setting, UInt64.toNat_ofNat_of_lt' hlt] at hread

/-- What is no number up to 10000 is refused. -/
theorem read_mutableKey_of_not_denotes (hvalue : value.isTrimmed)
    (h : ∀ n, Denotes value n → 10000 < n) :
    Setting.read (mutableKey, value) = .error (.badValue mutableKey value) :=
  Quantity.read_of_not_denotes (q := .topDefault) hvalue h

variable (c : Config)

/-- No other key can be changed. -/
theorem setOne_of_ne {key : Text} (h : key ≠ mutableKey) (value : Text) :
    setOne c (key, value) =
      (c, .say (utf8 "SET: '" ++ key ++ utf8 "' cannot be changed at runtime\n")) := by
  rw [setOne, if_neg h]

/-- A number up to 10000 is stored and echoed. -/
theorem setOne_of_denotes (hvalue : value.isTrimmed) (h : Denotes value n) (hn : n ≤ 10000) :
    setOne c (mutableKey, value) =
      ({ c with topDefault := n },
        .say (utf8 "top_default = " ++ Text.ofNat n ++ utf8 "\n")) := by
  rw [setOne, if_pos rfl, read_mutableKey_of_denotes hvalue h hn]
  rfl

/-- Anything else is refused, in the reply and in the log. -/
theorem setOne_of_not_denotes (hvalue : value.isTrimmed) (h : ∀ n, Denotes value n → 10000 < n) :
    setOne c (mutableKey, value) =
      (c, ⟨utf8 "SET: bad value for top_default: " ++ value ++ utf8 "\n",
        [.badValue mutableKey value]⟩) := by
  rw [setOne, if_pos rfl, read_mutableKey_of_not_denotes hvalue h]
  rfl

/-- The line that is logged for a refused value. -/
theorem transcript_badValue_mutableKey (value : Text) :
    Message.transcript [.badValue mutableKey value] =
      utf8 "config: bad value for 'top_default': " ++ value ++ utf8 "\n" := by
  have hfront : utf8 "config: bad value for '" ++ mutableKey ++ utf8 "': " =
      utf8 "config: bad value for 'top_default': " := by decide
  exact (List.append_nil _).trans (congrArg (· ++ value ++ utf8 "\n") hfront)

/-- An assignment is answered as its key and its value demand. -/
theorem answers_setOne {p : Text × Text} (hp : p.2.isTrimmed) : Answers p (setOne c p).2 := by
  obtain ⟨key, value⟩ := p
  by_cases hkey : key = mutableKey
  · subst hkey
    by_cases h : ∃ n, Denotes value n ∧ n ≤ 10000
    · obtain ⟨n, h, hn⟩ := h
      rw [setOne_of_denotes c hp h hn]
      exact .tuned h hn
    · have hnot : ∀ n, Denotes value n → 10000 < n := fun n hn =>
        Nat.lt_of_not_le fun hle => h ⟨n, hn, hle⟩
      rw [setOne_of_not_denotes c hp hnot]
      exact .refused hnot (transcript_badValue_mutableKey value)
  · rw [setOne_of_ne c hkey]
    exact .fixed hkey

end

/-! ## Parameters one after the other -/

section

variable (c : Config) {ps : List (Text × Text)}

/-- Assignments are answered one after the other. -/
theorem answers_setAll (h : ∀ p ∈ ps, p.2.isTrimmed) :
    ∃ rs, List.Forall₂ Answers ps rs ∧
      (setAll c ps).2 = ⟨rs.flatMap Reply.output, rs.flatMap Reply.messages⟩ := by
  induction ps generalizing c with
  | nil => exact ⟨[], .nil, rfl⟩
  | cons p ps ih =>
    obtain ⟨hp, hps⟩ := List.forall_mem_cons.1 h
    obtain ⟨rs, hrs, hreply⟩ := ih (setOne c p).1 hps
    refine ⟨(setOne c p).2 :: rs, .cons (answers_setOne c hp) hrs, ?_⟩
    rw [setAll, hreply]
    rfl

/-- Without the key that can be changed nothing changes. -/
theorem config_setAll_of_ne (h : ∀ p ∈ ps, p.1 ≠ mutableKey) : (setAll c ps).1 = c := by
  induction ps generalizing c with
  | nil => rfl
  | cons p ps ih =>
    obtain ⟨hp, hps⟩ := List.forall_mem_cons.1 h
    rw [setAll, setOne_of_ne c hp]
    exact ih c hps

/-- With one value to a key, no other parameter has a say in what comes of this one. -/
theorem config_setAll_of_mem (hps : (ps.map (·.1)).Nodup) {value : Text}
    (h : (mutableKey, value) ∈ ps) : (setAll c ps).1 = (setOne c (mutableKey, value)).1 := by
  induction ps generalizing c with
  | nil => simp at h
  | cons p ps ih =>
    obtain ⟨hp, hps⟩ := List.nodup_cons.1 hps
    rcases List.mem_cons.1 h with rfl | h
    · rw [setAll]
      refine config_setAll_of_ne _ fun q hq hkey => hp ?_
      exact List.mem_map.2 ⟨q, hq, hkey⟩
    · have hne : p.1 ≠ mutableKey := fun hkey => hp (List.mem_map.2 ⟨_, h, hkey.symm⟩)
      rw [setAll, setOne_of_ne c hne]
      exact ih c hps h

/-- The number that is denoted is stored, wherever it stands. -/
theorem config_setAll_of_denotes (hps : (ps.map (·.1)).Nodup) (htrimmed : ∀ p ∈ ps, p.2.isTrimmed)
    {value : Text} {n : Nat} (h : (mutableKey, value) ∈ ps) (hn : Denotes value n)
    (hle : n ≤ 10000) : (setAll c ps).1 = { c with topDefault := n } := by
  rw [config_setAll_of_mem c hps h, setOne_of_denotes c (htrimmed _ h) hn hle]

/-- Nothing changes if the value is refused. -/
theorem config_setAll_of_not_denotes (hps : (ps.map (·.1)).Nodup)
    (htrimmed : ∀ p ∈ ps, p.2.isTrimmed)
    (h : ∀ value n, (mutableKey, value) ∈ ps → Denotes value n → 10000 < n) :
    (setAll c ps).1 = c := by
  by_cases hkey : ∃ value, (mutableKey, value) ∈ ps
  · obtain ⟨value, hvalue⟩ := hkey
    have hno : ∀ n, Denotes value n → 10000 < n := fun n => h value n hvalue
    rw [config_setAll_of_mem c hps hvalue, setOne_of_not_denotes c (htrimmed _ hvalue) hno]
  · refine config_setAll_of_ne c ?_
    rintro ⟨key, value⟩ hp rfl
    exact hkey ⟨value, hp⟩

end

/-! ## Blocks -/

section

variable (c : Config) {block : List Line} (hlines : ∀ l ∈ block, Byte.newline ∉ l.content)

include hlines

/-- A block is read by its lines without their carriage returns. -/
theorem setBlock_of_bodies :
    setBlock c (block.map Line.content) =
      match Parameters.ofLines (block.map Line.body) with
      | .error bad =>
        (c, ⟨utf8 "SET rejected: every line must be key=value\n", [bad.message]⟩)
      | .ok ps => setAll c ps.toList := by
  rw [setBlock, ofText_blockText (List.forall_mem_map.2 hlines), List.map_map]
  rfl

/-- A block with a line that assigns nothing is refused as a whole, for its first such line. -/
theorem setBlock_of_bad_line (hne : ∀ l ∈ block.map Line.body, l ≠ [])
    (h : ∃ l ∈ block.map Line.body, Byte.equals ∉ l) :
    ∃ front l back, block.map Line.body = front ++ l :: back ∧ Byte.equals ∉ l ∧
      (∀ m ∈ front, Byte.equals ∈ m) ∧
      setBlock c (block.map Line.content) =
        (c, ⟨utf8 "SET rejected: every line must be key=value\n",
          [.invalidLine (front.length + 1) l]⟩) := by
  obtain ⟨l, hl, hequals⟩ := h
  obtain ⟨⟨number, content⟩, herror⟩ :=
    Parameters.exists_ofLines_eq_error_iff.2 ⟨l, hl, hne l hl, hequals⟩
  obtain ⟨front, back, hcut, rfl, -, hbad, hfront⟩ := Parameters.ofLines_eq_error_iff.1 herror
  refine ⟨front, content, back, hcut, hbad, fun m hm => ?_, ?_⟩
  · exact (hfront m hm).resolve_left (hne m (hcut ▸ List.mem_append_left _ hm))
  · rw [setBlock_of_bodies c hlines, herror]
    rfl

/-- The settings of a block that is not refused: what the last of its lines says of each key, in the
order of the keys. -/
theorem setBlock_of_assignments (h : ∀ l ∈ block.map Line.body, Byte.equals ∈ l) :
    ∃ ps, ps.Pairwise (·.1 < ·.1) ∧ (ps.map (·.1)).Nodup ∧ (∀ p ∈ ps, p.2.isTrimmed) ∧
      (∀ key value, (key, value) ∈ ps ↔ LastSays (block.map Line.body) key value) ∧
      setBlock c (block.map Line.content) = setAll c ps := by
  obtain ⟨m, hm⟩ := Parameters.exists_ofLines_eq_ok fun l hl => .inr (h l hl)
  have hmem : ∀ key value, (key, value) ∈ m.toList ↔
      LastSays (block.map Line.body) key value := fun key value => by
    rw [Std.ExtTreeMap.mem_toList_iff_getElem?_eq_some, (Parameters.ofLines_eq_ok_iff.1 hm).2]
  refine ⟨m.toList, ?_, Parameters.nodup_keys_toList m, ?_, hmem, ?_⟩
  · exact Std.ExtTreeMap.ordered_keys_toList.imp Text.compare_eq_lt.1
  · exact fun p hp => ((hmem p.1 p.2).1 hp).isTrimmed
  · rw [setBlock_of_bodies c hlines, hm]

end

/-- A block of settings goes from the line after the command to the first line that is empty, but
for a carriage return perhaps, or to the end of the input.  A line without an equals sign spoils all
of it, and the first such line is logged with its number.  Otherwise each key is answered, in the
order of the keys, for what the last line says of it; the default length of rankings becomes what
that line says, if it is a number that may be asked for. -/
theorem set_does_what_its_block_says (s : Statistics) (c : Config) {set : Line} {block : List Line}
    (hset : set.opensBlock)
    (hblock : ∀ l ∈ block, Byte.newline ∉ l.content ∧
      l.content ≠ [] ∧ l.content ≠ [Byte.carriageReturn]) :
    let lines := block.map Line.body
    ∃ after reply,
      (∀ last more, last.content = [] ∨ last.content = [Byte.carriageReturn] →
        let rest := feedAll ⟨s, after, .ready⟩ more
        feedAll ⟨s, c, .ready⟩ (set :: (block ++ last :: more)) =
          ⟨rest.console, reply ++ ⟨utf8 "> ", []⟩ ++ rest.reply, rest.unread⟩) ∧
      feedAll ⟨s, c, .ready⟩ (set :: block) =
        ⟨⟨s, after, .closed⟩, reply ++ ⟨utf8 "> ", []⟩, []⟩ ∧
      ((∃ l ∈ lines, Byte.equals ∉ l) →
        after = c ∧ ∃ front l back, lines = front ++ l :: back ∧ Byte.equals ∉ l ∧
          (∀ m ∈ front, Byte.equals ∈ m) ∧
          reply = ⟨utf8 "SET rejected: every line must be key=value\n",
            [.invalidLine (front.length + 1) l]⟩ ∧
          Message.transcript reply.messages = utf8 "parse_parameters_from_body: invalid line "
            ++ Text.ofNat (front.length + 1) ++ utf8 ": " ++ l ++ utf8 "\n") ∧
      ((∀ l ∈ lines, Byte.equals ∈ l) →
        (∃ ps rs, ps.Pairwise (·.1 < ·.1) ∧
          (∀ key value, (key, value) ∈ ps ↔ LastSays lines key value) ∧
          List.Forall₂ Answers ps rs ∧
          reply = ⟨rs.flatMap Reply.output, rs.flatMap Reply.messages⟩) ∧
        (∀ value n, LastSays lines (utf8 "top_default") value → Denotes value n → n ≤ 10000 →
          after = { c with topDefault := n }) ∧
        ((∀ value n, LastSays lines (utf8 "top_default") value → Denotes value n → 10000 < n) →
          after = c)) := by
  intro lines
  have hlines : ∀ l ∈ block, Byte.newline ∉ l.content := fun l hl => (hblock l hl).1
  have hends : ∀ l ∈ block, l.endsBlock = false := fun l hl => by
    simpa [Line.endsBlock, endsBlock] using (hblock l hl).2
  have hnonempty : ∀ l ∈ lines, l ≠ [] := List.forall_mem_map.2 fun l hl =>
    Line.body_ne_nil (hblock l hl).2.1 (hblock l hl).2.2
  refine ⟨(setBlock c (block.map Line.content)).1, (setBlock c (block.map Line.content)).2,
    ?_, ?_, ?_, ?_⟩
  · intro last more hlast rest
    have hlast' : last.endsBlock := by simpa [Line.endsBlock, endsBlock] using hlast
    exact feedAll_block_ended rfl hset hends hlast' more
  · exact feedAll_block_open rfl hset hends
  · intro hbad
    obtain ⟨front, l, back, hcut, hl, hfront, heq⟩ := setBlock_of_bad_line c hlines hnonempty hbad
    rw [heq]
    exact ⟨rfl, front, l, back, hcut, hl, hfront, rfl, List.append_nil _⟩
  · intro hall
    obtain ⟨ps, hordered, hnodup, htrimmed, hmem, heq⟩ := setBlock_of_assignments c hlines hall
    obtain ⟨rs, hrs, hreply⟩ := answers_setAll c htrimmed
    rw [heq]
    refine ⟨⟨ps, rs, hordered, hmem, hrs, hreply⟩, fun value n hvalue hn hle => ?_, fun h => ?_⟩
    · exact config_setAll_of_denotes c hnodup htrimmed ((hmem _ _).2 hvalue) hn hle
    · exact config_setAll_of_not_denotes c hnodup htrimmed fun value n hp =>
        h value n ((hmem _ _).1 hp)

/-- The last of three lines sets the length, though the first gave it another one; the line between
them is answered too. -/
theorem set_does_what_its_block_says_of_three :
    let s := Statistics.create (fun _ => 0) 1 2
    let c : Config := {}
    let set : Line := ⟨utf8 "SET", true⟩
    let block : List Line :=
      [⟨utf8 "top_default=5", true⟩, ⟨utf8 "qcap = 9\r", true⟩, ⟨utf8 " top_default =+12", false⟩]
    set.opensBlock ∧
    (∀ l ∈ block, Byte.newline ∉ l.content ∧
      l.content ≠ [] ∧ l.content ≠ [Byte.carriageReturn]) ∧
    LastSays (block.map Line.body) (utf8 "top_default") (utf8 "+12") ∧ Denotes (utf8 "+12") 12 ∧
    ∃ reply, feedAll ⟨s, c, .ready⟩ (set :: block) =
      ⟨⟨s, { c with topDefault := 12 }, .closed⟩, reply ++ ⟨utf8 "> ", []⟩, []⟩ := by
  intro s c set block
  have hset : set.opensBlock := by decide
  have hblock : ∀ l ∈ block, Byte.newline ∉ l.content ∧
      l.content ≠ [] ∧ l.content ≠ [Byte.carriageReturn] := by decide
  have hlast : LastSays (block.map Line.body) (utf8 "top_default") (utf8 "+12") :=
    ⟨[utf8 "top_default=5", utf8 "qcap = 9"], utf8 " top_default =+12", [], rfl,
      Parameters.assignment?_eq_some_iff.1 (by decide), by simp⟩
  have hnumber : Denotes (utf8 "+12") 12 :=
    ⟨utf8 "+", utf8 "12", .plus, ⟨List.all_eq_true.1 (by decide), by decide⟩, rfl, by decide⟩
  obtain ⟨after, reply, -, hopen, -, htuned⟩ :=
    set_does_what_its_block_says s c hset hblock
  obtain ⟨-, hafter, -⟩ := htuned (by decide)
  rw [hafter _ 12 hlast hnumber (by decide)] at hopen
  exact ⟨hset, hblock, hlast, hnumber, reply, hopen⟩

end Console

end QueryStats
