import QueryStats.Console
import QueryStats.Proofs.Lines

/-!
# Input read in turns

A turn is a line that is read as a command, with the lines of the block of settings that it opens.
Every line of the input belongs to one turn or is left unread, and there is one way only to read the
input so.  What a console does is what its turns do, one after the other.
-/

namespace QueryStats

/-! ## Lines -/

namespace Line

/-- The first word of a line. -/
def keyword (l : Line) : Text := (Text.word l.body).1

/-- The line is followed by a block of settings. -/
def opensBlock (l : Line) : Bool := l.keyword == utf8 "SET"

/-- Nothing after the line is read. -/
def endsSession (l : Line) : Bool := l.keyword == utf8 "QUIT" || l.keyword == utf8 "EXIT"

/-- The line ends a block of settings. -/
def endsBlock (l : Line) : Bool := Console.endsBlock l.content

end Line

namespace Command

/-- The commands that leave something behind, by their words. -/
theorem ofWord_eq_iff (word rest : Text) :
    (ofWord word rest = .set ↔ word = utf8 "SET") ∧
    (ofWord word rest = .rotate ↔ word = utf8 "ROTATE") ∧
    (ofWord word rest = .quit ↔ word = utf8 "QUIT" ∨ word = utf8 "EXIT") := by
  unfold ofWord
  split_ifs <;> simp_all

/-- Three commands are told by the first word of the line. -/
theorem read_eq_iff (l : Line) :
    (read l.body = .set ↔ l.opensBlock) ∧ (read l.body = .rotate ↔ l.keyword = utf8 "ROTATE") ∧
    (read l.body = .quit ↔ l.endsSession) := by
  rw [Line.opensBlock, Line.endsSession, Bool.or_eq_true, beq_iff_eq, beq_iff_eq, beq_iff_eq,
    Line.keyword, read]
  cases h : l.body with
  | nil => decide
  | cons b t => exact ofWord_eq_iff _ _

end Command

/-- A line that ends the session opens no block. -/
theorem Line.not_opensBlock {l : Line} (h : l.endsSession) : l.opensBlock = false := by
  rw [← Bool.not_eq_true, ← (Command.read_eq_iff l).1, (Command.read_eq_iff l).2.2.2 h]
  exact Command.noConfusion

/-- A line that opens a block does not end the session. -/
theorem Line.not_endsSession {l : Line} (h : l.opensBlock) : l.endsSession = false := by
  cases hq : l.endsSession with
  | false => rfl
  | true => exact absurd h (by simp [Line.not_opensBlock hq])

/-! ## Turns -/

/-- A line that is read as a command, and the lines of the block of settings after it. -/
structure Turn where
  line : Line
  block : List Line
deriving DecidableEq, Repr

namespace Turn

def command (t : Turn) : Command := Command.read t.line.body

def lines (t : Turn) : List Line := t.line :: t.block

/-- The lines of the block but for the one that ends it. -/
def settings (t : Turn) : List Text := (t.block.filter (!·.endsBlock)).map Line.content

/-- The block is read to the line that ends it. -/
def isComplete (t : Turn) : Bool := t.block.getLast?.any Line.endsBlock

end Turn

/-- Lines as turns: what is read of some lines, and the lines left unread.  A block goes up to the
first line that ends it, or to the end of the input. -/
inductive Turns : List Line → List Turn → List Line → Prop where
  | nil : Turns [] [] []
  | quit {l : Line} {ls : List Line} : l.endsSession → Turns (l :: ls) [⟨l, []⟩] ls
  | plain {l : Line} {ls : List Line} {ts : List Turn} {rest : List Line} :
    l.endsSession = false → l.opensBlock = false → Turns ls ts rest →
    Turns (l :: ls) (⟨l, []⟩ :: ts) rest
  | set {l last : Line} {block ls : List Line} {ts : List Turn} {rest : List Line} :
    l.opensBlock → (∀ m ∈ block, m.endsBlock = false) → last.endsBlock → Turns ls ts rest →
    Turns (l :: (block ++ last :: ls)) (⟨l, block ++ [last]⟩ :: ts) rest
  | open {l : Line} {block : List Line} :
    l.opensBlock → (∀ m ∈ block, m.endsBlock = false) → Turns (l :: block) [⟨l, block⟩] []

namespace Turns

variable {ls : List Line} {ts : List Turn} {rest : List Line}

/-- Every line is in one turn or left unread. -/
theorem flatMap_lines (h : Turns ls ts rest) : ls = ts.flatMap Turn.lines ++ rest := by
  induction h with
  | nil => rfl
  | quit => rfl
  | plain _ _ _ ih => simpa [Turn.lines] using ih
  | set _ _ _ _ ih => simp [Turn.lines, ← ih]
  | «open» => simp [Turn.lines]

/-- Lines can always be split into turns. -/
theorem exists_turns (ls : List Line) : ∃ ts rest, Turns ls ts rest := by
  induction hn : ls.length using Nat.strongRecOn generalizing ls with
  | ind n ih =>
    cases ls with
    | nil => exact ⟨_, _, .nil⟩
    | cons l ls =>
      cases hq : l.endsSession with
      | true => exact ⟨_, _, .quit hq⟩
      | false =>
        cases hs : l.opensBlock with
        | false =>
          obtain ⟨ts, rest, h⟩ := ih ls.length (by simp [← hn]) ls rfl
          exact ⟨_, _, .plain hq hs h⟩
        | true =>
          cases hf : ls.find? Line.endsBlock with
          | none => exact ⟨_, _, .open hs (by simpa using hf)⟩
          | some last =>
            obtain ⟨hlast, block, after, rfl, hblock⟩ := List.find?_eq_some_iff_append.1 hf
            obtain ⟨ts, rest, h⟩ := ih after.length (by simp [← hn]; omega) after rfl
            exact ⟨_, _, .set hs (by simpa using hblock) hlast h⟩

/-- A block ends at the first line that can end it, and nowhere else. -/
theorem block_unique {block block' after after' : List Line} {last last' : Line}
    (hb : ∀ m ∈ block, m.endsBlock = false) (hlast : last.endsBlock)
    (hb' : ∀ m ∈ block', m.endsBlock = false) (hlast' : last'.endsBlock)
    (h : block ++ last :: after = block' ++ last' :: after') :
    block = block' ∧ last = last' ∧ after = after' := by
  induction block generalizing block' with
  | nil =>
    cases block' with
    | nil => simpa using h
    | cons m block' =>
      obtain ⟨rfl, -⟩ := List.cons.inj h
      simp [hb' _ List.mem_cons_self] at hlast
  | cons m block ih =>
    cases block' with
    | nil =>
      obtain ⟨rfl, -⟩ := List.cons.inj h
      simp [hb _ List.mem_cons_self] at hlast'
    | cons m' block' =>
      obtain ⟨rfl, htail⟩ := List.cons.inj h
      obtain ⟨rfl, hrest⟩ := ih (fun m hm => hb m (List.mem_cons_of_mem _ hm))
        (fun m hm => hb' m (List.mem_cons_of_mem _ hm)) htail
      exact ⟨rfl, hrest⟩

/-- What follows a line that opens a block. -/
theorem of_opensBlock {l : Line} (hs : l.opensBlock) (h : Turns (l :: ls) ts rest) :
    (∃ block last after us, ls = block ++ last :: after ∧ ts = ⟨l, block ++ [last]⟩ :: us ∧
      (∀ m ∈ block, m.endsBlock = false) ∧ last.endsBlock ∧ Turns after us rest) ∨
    ((∀ m ∈ ls, m.endsBlock = false) ∧ ts = [⟨l, ls⟩] ∧ rest = []) := by
  cases h with
  | quit hq => simp [Line.not_opensBlock hq] at hs
  | plain _ hs' => simp [hs'] at hs
  | set _ hb hlast h => exact .inl ⟨_, _, _, _, rfl, rfl, hb, hlast, h⟩
  | «open» _ hb => exact .inr ⟨hb, rfl, rfl⟩

/-- There is one way only to read lines in turns. -/
theorem unique {ts' : List Turn} {rest' : List Line} (h : Turns ls ts rest)
    (h' : Turns ls ts' rest') : ts = ts' ∧ rest = rest' := by
  induction h generalizing ts' rest' with
  | nil =>
    cases h'
    exact ⟨rfl, rfl⟩
  | quit hq =>
    cases h' with
    | quit => exact ⟨rfl, rfl⟩
    | plain hq' => simp [hq'] at hq
    | set hs => simp [Line.not_opensBlock hq] at hs
    | «open» hs => simp [Line.not_opensBlock hq] at hs
  | plain hq hs _ ih =>
    cases h' with
    | quit hq' => simp [hq] at hq'
    | plain _ _ h =>
      obtain ⟨rfl, rfl⟩ := ih h
      exact ⟨rfl, rfl⟩
    | set hs' => simp [hs] at hs'
    | «open» hs' => simp [hs] at hs'
  | set hs hb hlast _ ih =>
    rcases of_opensBlock hs h' with ⟨_, _, _, _, heq, rfl, hb', hlast', h⟩ | ⟨hall, -⟩
    · obtain ⟨rfl, rfl, rfl⟩ := block_unique hb hlast hb' hlast' heq
      obtain ⟨rfl, rfl⟩ := ih h
      exact ⟨rfl, rfl⟩
    · simp [hall _ (List.mem_append_right _ List.mem_cons_self)] at hlast
  | «open» hs hb =>
    rcases of_opensBlock hs h' with ⟨_, _, _, _, rfl, rfl, _, hlast', _⟩ | ⟨_, rfl, rfl⟩
    · simp [hb _ (List.mem_append_right _ List.mem_cons_self)] at hlast'
    · exact ⟨rfl, rfl⟩

/-- Nothing is left unread, or else the last turn ends the session.  No other turn does. -/
def Ended (ts : List Turn) (rest : List Line) : Prop :=
  (rest = [] ∧ ∀ t ∈ ts, t.line.endsSession = false) ∨
  ∃ front last, ts = front ++ [⟨last, []⟩] ∧ last.endsSession ∧
    ∀ t ∈ front, t.line.endsSession = false

/-- One more turn in front leaves the end as it is. -/
theorem Ended.cons {t : Turn} (ht : t.line.endsSession = false) (h : Ended ts rest) :
    Ended (t :: ts) rest := by
  rcases h with ⟨rfl, hts⟩ | ⟨front, last, rfl, hlast, hfront⟩
  · exact .inl ⟨rfl, List.forall_mem_cons.2 ⟨ht, hts⟩⟩
  · exact .inr ⟨t :: front, last, rfl, hlast, List.forall_mem_cons.2 ⟨ht, hfront⟩⟩

/-- What is not read lies behind a turn that ends the session. -/
theorem ended (h : Turns ls ts rest) : Ended ts rest := by
  induction h with
  | nil => exact .inl ⟨rfl, by simp⟩
  | quit hq => exact .inr ⟨[], _, rfl, hq, by simp⟩
  | plain hq _ _ ih => exact ih.cons hq
  | set hs _ _ _ ih => exact ih.cons (Line.not_endsSession hs)
  | «open» hs => exact .inl ⟨rfl, by simpa using Line.not_endsSession hs⟩

/-- Turns go on where the input before them ended between two turns. -/
theorem append {ms : List Line} {us : List Turn} {rest' : List Line} (h : Turns ls ts rest)
    (hquit : ∀ t ∈ ts, t.line.endsSession = false)
    (hset : ∀ t ∈ ts, t.line.opensBlock → t.isComplete) (h' : Turns ms us rest') :
    Turns (ls ++ ms) (ts ++ us) rest' := by
  induction h with
  | nil => exact h'
  | quit hq =>
    have := hquit _ List.mem_cons_self
    simp [hq] at this
  | plain hq hs _ ih =>
    exact .plain hq hs (ih (List.forall_mem_cons.1 hquit).2 (List.forall_mem_cons.1 hset).2)
  | set hs hb hlast _ ih =>
    have ih := ih (List.forall_mem_cons.1 hquit).2 (List.forall_mem_cons.1 hset).2
    simpa using Turns.set hs hb hlast ih
  | @«open» l block hs hb =>
    obtain ⟨m, hm, hlast⟩ := (Option.any_eq_true _ _).1 (hset _ List.mem_cons_self hs)
    simp [hb m (List.mem_of_getLast? hm)] at hlast

end Turns

end QueryStats
