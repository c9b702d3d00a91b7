import QueryStats.Proofs.Turns

/-!
# Sessions as turns

A console reads line by line and keeps in mind whether it is inside a block of settings.  Seen from
outside it takes turns: each turn does what its command says, a block of settings is settled as a
whole, and the lines of a block are nothing but settings.
-/

namespace QueryStats

namespace Console

/-- Takes a turn.  Only a turn with a block can change the configuration. -/
def take (t : Turn) (c : Console) : Console × Reply :=
  let set := if t.line.opensBlock then setBlock c.config t.settings else (c.config, ∅)
  let after := if t.line.endsSession then Mode.closed else .ready
  (⟨effect t.command c.statistics, set.1, after⟩,
    reply c.statistics c.config t.command ++ set.2 ++ promptAfter after)

/-- Takes turn after turn. -/
def takeAll (c : Console) : List Turn → Console × Reply
  | [] => (c, ∅)
  | t :: ts =>
    let one := c.take t
    let rest := takeAll one.1 ts
    (rest.1, one.2 ++ rest.2)

/-- Turns are taken one after the other. -/
theorem takeAll_append (c : Console) (ts us : List Turn) :
    c.takeAll (ts ++ us) =
      (((c.takeAll ts).1.takeAll us).1, (c.takeAll ts).2 ++ ((c.takeAll ts).1.takeAll us).2) := by
  induction ts generalizing c with
  | nil => rfl
  | cons t ts ih => simp only [List.cons_append, takeAll, ih, Reply.append_assoc]

/-! ## Line by line -/

section

variable {c : Console} {l : Line} {block : List Line} {lines : List Text}

/-- A closed console reads no line. -/
theorem feedAll_of_closed (h : c.mode = .closed) (ls : List Line) : c.feedAll ls = ⟨c, ∅, ls⟩ := by
  obtain ⟨s, config, mode⟩ := c
  subst h
  cases ls <;> rfl

/-- An open console reads the next line. -/
theorem feedAll_cons (h : c.mode ≠ .closed) (l : Line) (ls : List Line) :
    c.feedAll (l :: ls) =
      ⟨((c.feed l).1.feedAll ls).console, (c.feed l).2 ++ ((c.feed l).1.feedAll ls).reply,
        ((c.feed l).1.feedAll ls).unread⟩ := by
  rw [feedAll, isClosed, if_neg (by simpa using h)]

/-- A line that opens no block is a whole turn. -/
theorem feed_eq_take (h : c.mode = .ready) (hs : l.opensBlock = false) :
    c.feed l = c.take ⟨l, []⟩ := by
  have hset : Command.read l.body ≠ .set := by
    rw [Ne, (Command.read_eq_iff l).1, hs]
    exact Bool.false_ne_true
  have hmode : modeAfter (Command.read l.body) = if l.endsSession then .closed else .ready := by
    have hquit := (Command.read_eq_iff l).2.2
    cases hk : Command.read l.body <;> simp_all [modeAfter]
  rw [feed, h, take]
  simp only [hmode, hs, Turn.command, Bool.false_eq_true, if_false, Reply.append_empty]

/-- A line that opens a block waits for the others. -/
theorem feed_of_opensBlock (h : c.mode = .ready) (hs : l.opensBlock) :
    c.feed l = ({ c with mode := .block [] }, ∅) := by
  rw [feed, h]
  simp only [(Command.read_eq_iff l).1.2 hs]
  rfl

/-- A turn with a block is settled by the lines of the block. -/
theorem take_of_opensBlock {t : Turn} (hs : t.line.opensBlock) :
    c.take t = c.settle t.settings := by
  have hset : t.command = .set := (Command.read_eq_iff t.line).1.2 hs
  rw [take, settle, hset, hs, Line.not_endsSession hs]
  rfl

/-- The lines of a block are collected. -/
theorem feed_of_block (h : c.mode = .block lines) (hl : l.endsBlock = false) :
    c.feed l = ({ c with mode := .block (lines ++ [l.content]) }, ∅) := by
  rw [Line.endsBlock] at hl
  simp only [feed, h, hl, Bool.false_eq_true, if_false]

/-- At its end a block is settled. -/
theorem feed_of_endsBlock (h : c.mode = .block lines) (hl : l.endsBlock) :
    c.feed l = c.settle lines := by
  rw [Line.endsBlock] at hl
  simp only [feed, h, hl, if_true]

/-- Lines that do not end a block are collected together. -/
theorem feedAll_block (h : c.mode = .block lines) (hb : ∀ m ∈ block, m.endsBlock = false)
    (ls : List Line) :
    c.feedAll (block ++ ls) =
      { c with mode := .block (lines ++ block.map Line.content) }.feedAll ls := by
  induction block generalizing c lines with
  | nil => simp [← h]
  | cons m block ih =>
    obtain ⟨hm, hb⟩ := List.forall_mem_cons.1 hb
    rw [List.cons_append, feedAll_cons (by simp [h]), feed_of_block h hm, ih rfl hb]
    simp

/-- A block is settled at the line that ends it, and what follows is fed to the console then. -/
theorem feedAll_block_ended {last : Line} (hc : c.mode = .ready) (hs : l.opensBlock)
    (hb : ∀ m ∈ block, m.endsBlock = false) (hlast : last.endsBlock) (ls : List Line) :
    c.feedAll (l :: (block ++ last :: ls)) =
      ⟨((c.settle (block.map Line.content)).1.feedAll ls).console,
        (c.settle (block.map Line.content)).2 ++
          ((c.settle (block.map Line.content)).1.feedAll ls).reply,
        ((c.settle (block.map Line.content)).1.feedAll ls).unread⟩ := by
  rw [feedAll_cons (by simp [hc]), feed_of_opensBlock hc hs, feedAll_block rfl hb,
    feedAll_cons Mode.noConfusion, feed_of_endsBlock rfl hlast]
  rfl

/-- A block that no line ends is settled at the end of the input. -/
theorem feedAll_block_open (hc : c.mode = .ready) (hs : l.opensBlock)
    (hb : ∀ m ∈ block, m.endsBlock = false) :
    c.feedAll (l :: block) =
      ⟨(c.settle (block.map Line.content)).1.close, (c.settle (block.map Line.content)).2, []⟩ := by
  have hblock := feedAll_block (c := (c.feed l).1) (by rw [feed_of_opensBlock hc hs]) hb []
  rw [List.append_nil] at hblock
  rw [feedAll_cons (by simp [hc]), hblock, feed_of_opensBlock hc hs]
  rfl

/-- The settings of a turn are the lines of its block, without the line that ends it. -/
theorem settings_eq (l last : Line) (hb : ∀ m ∈ block, m.endsBlock = false) :
    (Turn.mk l block).settings = block.map Line.content ∧
    (last.endsBlock → (Turn.mk l (block ++ [last])).settings = block.map Line.content) := by
  have hfilter : block.filter (!·.endsBlock) = block :=
    List.filter_eq_self.2 fun m hm => by simp [hb m hm]
  refine ⟨by rw [Turn.settings, hfilter], fun hlast => ?_⟩
  rw [Turn.settings, List.filter_append, hfilter]
  simp [hlast]

/-- The lines of a block are put together to a text and cut apart again, which brings them back. -/
theorem ofText_blockText (h : ∀ l ∈ lines, Byte.newline ∉ l) :
    Parameters.ofText (blockText lines) =
      Parameters.ofLines (lines.map fun l => Line.body ⟨l, true⟩) := by
  rw [Parameters.ofText, blockText, Text.lines_unlines h, List.map_map]
  rfl

end

/-! ## Turn by turn -/

/-- What a console makes of some lines is what it makes of their turns. -/
theorem feedAll_of_turns {c : Console} {ls rest : List Line} {ts : List Turn}
    (h : Turns ls ts rest) (hc : c.mode = .ready) :
    c.feedAll ls = ⟨(c.takeAll ts).1.close, (c.takeAll ts).2, rest⟩ := by
  induction h generalizing c with
  | nil => simp [feedAll, finish, hc, takeAll]
  | @quit l ls hq =>
    have hmode : (c.take ⟨l, []⟩).1.mode = .closed := by simp [take, hq]
    rw [feedAll_cons (by simp [hc]), feed_eq_take hc (Line.not_opensBlock hq),
      feedAll_of_closed hmode]
    simp [takeAll, close, ← hmode]
  | @plain l ls ts rest hq hs _ ih =>
    have hmode : (c.take ⟨l, []⟩).1.mode = .ready := by simp [take, hq]
    rw [feedAll_cons (by simp [hc]), feed_eq_take hc hs, ih hmode]
    rfl
  | @set l last block ls ts rest hs hb hlast _ ih =>
    have htake : c.take ⟨l, block ++ [last]⟩ = c.settle (block.map Line.content) := by
      rw [take_of_opensBlock hs, (settings_eq l last hb).2 hlast]
    rw [feedAll_block_ended hc hs hb hlast, ih rfl, takeAll, htake]
  | @«open» l block hs hb =>
    have htake : c.take ⟨l, block⟩ = c.settle (block.map Line.content) := by
      rw [take_of_opensBlock hs, (settings_eq l l hb).1]
    rw [feedAll_block_open hc hs hb, takeAll, htake, takeAll, Reply.append_empty]

/-- A session takes its turns and then closes. -/
theorem run_of_turns {input : Text} {ts : List Turn} {unread : List Line}
    (h : Turns input.lines ts unread) (s : Statistics) (c : Config) :
    run s c false input =
      ⟨(takeAll ⟨s, c, .ready⟩ ts).1.close, .say banner ++ (takeAll ⟨s, c, .ready⟩ ts).2,
        unread⟩ := by
  rw [run, if_neg Bool.false_ne_true, feedAll_of_turns h rfl]

/-- A session that is told to stop prints its banner and reads nothing. -/
theorem run_of_stopping (s : Statistics) (c : Config) (input : Text) :
    run s c true input = ⟨⟨s, c, .closed⟩, .say banner, input.lines⟩ := by
  rw [run, if_pos rfl, feedAll_of_closed rfl, Reply.append_empty]

/-! ## What turns leave behind -/

/-- The statistics change by the commands, and by no line of a block. -/
theorem statistics_takeAll (c : Console) (ts : List Turn) :
    (c.takeAll ts).1.statistics =
      (ts.map Turn.command).foldl (fun s k => effect k s) c.statistics := by
  induction ts generalizing c with
  | nil => rfl
  | cons t ts ih => exact ih (c.take t).1

/-- The configuration is changed by blocks only. -/
theorem config_take (c : Console) (t : Turn) :
    (c.take t).1.config =
      if t.line.opensBlock then (setBlock c.config t.settings).1 else c.config := by
  rw [take]
  split <;> rfl

/-- The configuration changes by the blocks, and by no other line. -/
theorem config_takeAll (c : Console) (ts : List Turn) :
    (c.takeAll ts).1.config =
      ((ts.filter (·.line.opensBlock)).map Turn.settings).foldl (fun c ls => (setBlock c ls).1)
        c.config := by
  induction ts generalizing c with
  | nil => rfl
  | cons t ts ih =>
    rw [takeAll, ih, config_take]
    by_cases h : t.line.opensBlock <;> simp [h]

/-- Without a turn that ends the session the console stays ready. -/
theorem mode_takeAll {c : Console} {ts : List Turn} (hc : c.mode = .ready)
    (h : ∀ t ∈ ts, t.line.endsSession = false) : (c.takeAll ts).1.mode = .ready := by
  induction ts generalizing c with
  | nil => exact hc
  | cons t ts ih =>
    obtain ⟨ht, hts⟩ := List.forall_mem_cons.1 h
    exact ih (by simp [take, ht]) hts

theorem eq_of_ready {c : Console} (h : c.mode = .ready) :
    (⟨c.statistics, c.config, .ready⟩ : Console) = c := by
  rw [← h]

/-! ## Sessions -/

/-- Every line of the input is read once, as a command or in the block of the command before it, or
is left unread after the line that ends the session.  Only the lines read as commands count as
commands; a block is a matter of the configuration, whatever its lines would do elsewhere. -/
theorem reads_every_line_once (s : Statistics) (c : Config) (input : Text) :
    let session := run s c false input
    let stopped := run s c true input
    (∃ ts unread, Turns input.lines ts unread ∧
      (∀ us rest, Turns input.lines us rest → us = ts ∧ rest = unread) ∧
      session.unread = unread ∧
      input = Text.unlines (ts.flatMap Turn.lines) ++ session.rest ∧
      session.console =
        ⟨(ts.map Turn.command).foldl (fun s k => effect k s) s,
          ((ts.filter (·.line.opensBlock)).map Turn.settings).foldl (fun c ls => (setBlock c ls).1)
            c, .closed⟩ ∧
      session.reply = .say banner ++ (takeAll ⟨s, c, .ready⟩ ts).2 ∧
      ((session.rest = [] ∧ ∀ t ∈ ts, t.line.endsSession = false) ∨
        ∃ front last, ts = front ++ [⟨last, []⟩] ∧ last.endsSession ∧
          (∀ t ∈ front, t.line.endsSession = false) ∧
          input = Text.unlines (front.flatMap Turn.lines) ++ last.raw ++ session.rest ∧
          (last.terminated ∨ session.rest = []))) ∧
    stopped.console = ⟨s, c, .closed⟩ ∧ stopped.reply = .say banner ∧ stopped.rest = input := by
  intro session stopped
  obtain ⟨ts, unread, h⟩ := Turns.exists_turns input.lines
  have hsession : session =
      ⟨(takeAll ⟨s, c, .ready⟩ ts).1.close, .say banner ++ (takeAll ⟨s, c, .ready⟩ ts).2,
        unread⟩ := run_of_turns h s c
  have hinput : input = Text.unlines (ts.flatMap Turn.lines) ++ Text.unlines unread := by
    rw [← Text.unlines_append, ← h.flatMap_lines, Text.unlines_lines]
  have hstopped : stopped = ⟨⟨s, c, .closed⟩, .say banner, input.lines⟩ :=
    run_of_stopping s c input
  refine ⟨⟨ts, unread, h, fun us rest h' => h'.unique h, ?_⟩, ?_⟩
  · rw [hsession]
    refine ⟨rfl, hinput, ?_, rfl, ?_⟩
    · rw [close, ← statistics_takeAll ⟨s, c, .ready⟩ ts, ← config_takeAll ⟨s, c, .ready⟩ ts]
    · rcases h.ended with ⟨rfl, hts⟩ | ⟨front, last, rfl, hlast, hfront⟩
      · exact .inl ⟨rfl, hts⟩
      · refine .inr ⟨front, last, rfl, hlast, hfront, ?_, ?_⟩
        · simpa [Turn.lines, Text.unlines_append, Session.rest] using hinput
        · have hlines := h.flatMap_lines
          rw [List.flatMap_append, List.append_assoc] at hlines
          cases unread with
          | nil => exact .inr rfl
          | cons m ms => exact .inl (Text.terminated_of_lines_eq hlines (List.cons_ne_nil m ms))
  · rw [hstopped]
    exact ⟨rfl, rfl, Text.unlines_lines input⟩

/-- A session can be taken up again where it stopped between two turns: it goes on as if it had
never stopped, but for a second banner, which ends with the first prompt. -/
theorem run_again {input : Text} (hinput : input = [] ∨ input.getLast? = some Byte.newline)
    {ts : List Turn} {unread : List Line} (h : Turns input.lines ts unread)
    (hquit : ∀ t ∈ ts, t.line.endsSession = false)
    (hset : ∀ t ∈ ts, t.line.opensBlock → t.isComplete) (more : Text) (s : Statistics)
    (c : Config) :
    let first := run s c false input
    let second := run first.console.statistics first.console.config false more
    let whole := run s c false (input ++ more)
    whole.console = second.console ∧ whole.rest = second.rest ∧
    whole.reply.messages = first.reply.messages ++ second.reply.messages ∧
    ∃ out, second.reply.output = banner ++ out ∧
      whole.reply.output = first.reply.output ++ out := by
  intro first second whole
  obtain ⟨us, rest, h'⟩ := Turns.exists_turns more.lines
  have hfirst : first = _ := run_of_turns h s c
  have hready : (⟨first.console.statistics, first.console.config, .ready⟩ : Console) =
      (takeAll ⟨s, c, .ready⟩ ts).1 := by
    rw [hfirst]
    exact eq_of_ready (mode_takeAll rfl hquit)
  have hsecond : second = _ := run_of_turns h' _ _
  rw [hready] at hsecond
  have hlines : Turns (input ++ more).lines (ts ++ us) rest := by
    rw [Text.lines_append hinput]
    exact h.append hquit hset h'
  have hwhole : whole = _ := run_of_turns hlines s c
  rw [takeAll_append] at hwhole
  rw [hwhole, hsecond, hfirst]
  refine ⟨rfl, rfl, ?_, _, rfl, ?_⟩
  · simp [Reply.say]
  · simp [Reply.say]

/-- A block and a rotation, and a second part with a line behind the end. -/
theorem run_again_after_rotation :
    let set : Line := ⟨utf8 "SET", true⟩
    let block : List Line := [⟨utf8 "top_default = 3", true⟩, ⟨[], true⟩]
    let rotate : Line := ⟨utf8 "ROTATE", true⟩
    let input := Text.unlines (set :: block ++ [rotate])
    let more := utf8 "TOP hosts\nQUIT\nSTATS\n"
    let first := run (.create (fun _ => 0) 1 2) {} false input
    let second := run first.console.statistics first.console.config false more
    let whole := run (.create (fun _ => 0) 1 2) {} false (input ++ more)
    input.getLast? = some Byte.newline ∧ Turns input.lines [⟨set, block⟩, ⟨rotate, []⟩] [] ∧
    whole.console = second.console ∧ whole.rest = second.rest ∧
    whole.reply.messages = first.reply.messages ++ second.reply.messages ∧
    ∃ out, second.reply.output = banner ++ out ∧
      whole.reply.output = first.reply.output ++ out := by
  intro set block rotate input more first second whole
  have hlast : input.getLast? = some Byte.newline := by decide
  have hlines : input.lines =
      set :: ([⟨utf8 "top_default = 3", true⟩] ++ ⟨[], true⟩ :: [rotate]) := by decide
  have hturns : Turns input.lines [⟨set, block⟩, ⟨rotate, []⟩] [] := by
    rw [hlines]
    exact .set (by decide) (by decide) (by decide) (.plain (by decide) (by decide) .nil)
  exact ⟨hlast, hturns, run_again (.inr hlast) hturns (by decide) (by decide) more _ _⟩

end Console

end QueryStats
