import QueryStats.Command
import QueryStats.Config
import QueryStats.Report
import QueryStats.Statistics

/-! # The console -/

namespace QueryStats

/-- What is written to the user and reported to the operator. -/
structure Reply where
  output : Text
  messages : List Message
deriving DecidableEq, Repr

namespace Reply

instance : EmptyCollection Reply := ⟨⟨[], []⟩⟩

instance : Append Reply := ⟨fun r s => ⟨r.output ++ s.output, r.messages ++ s.messages⟩⟩

/-- A reply without messages. -/
def say (t : Text) : Reply := ⟨t, []⟩

@[simp] theorem output_empty : (∅ : Reply).output = [] := rfl
@[simp] theorem messages_empty : (∅ : Reply).messages = [] := rfl
@[simp] theorem output_append (r s : Reply) : (r ++ s).output = r.output ++ s.output := rfl
@[simp] theorem messages_append (r s : Reply) : (r ++ s).messages = r.messages ++ s.messages := rfl

/-- Replies follow one another, however they are grouped. -/
theorem append_assoc (r s t : Reply) : r ++ s ++ t = r ++ (s ++ t) := by
  show Reply.mk _ _ = Reply.mk _ _
  simp

@[simp] theorem empty_append (r : Reply) : ∅ ++ r = r := rfl
@[simp] theorem append_empty (r : Reply) : r ++ ∅ = r := by
  show Reply.mk _ _ = _
  simp

end Reply

/-- What the console does with the next line. -/
inductive Mode where
  /-- reads a command -/
  | ready
  /-- adds to the lines of a block of settings -/
  | block (lines : List Text)
  /-- leaves it unread -/
  | closed
deriving DecidableEq, Repr

structure Console where
  statistics : Statistics
  config : Config
  mode : Mode

namespace Console

def helpText : Text :=
  utf8 "Commands: STATS | HISTORY <start> <end> | TOP hosts|clients|reasons [N] | COUNTERS | "
    ++ utf8 "ROTATE | SET (key=value lines, blank line ends) | QUIT\n"

def prompt : Text := utf8 "> "

def banner : Text := utf8 "StatPulse CLI ready. " ++ helpText ++ prompt

/-! ## Settings at run time -/

/-- The only setting that can be changed at run time. -/
def mutableKey : Text := utf8 "top_default"

/-- Tries one parameter of a block. -/
def setOne (c : Config) (p : Text × Text) : Config × Reply :=
  if p.1 = mutableKey then
    match Setting.read p with
    | .ok s =>
      let n := (c.put s).topDefault
      ({ c with topDefault := n }, .say (utf8 "top_default = " ++ Text.ofInt n ++ utf8 "\n"))
    | .error r =>
      (c, ⟨utf8 "SET: bad value for top_default: " ++ p.2 ++ utf8 "\n", [r.message]⟩)
  else (c, .say (utf8 "SET: '" ++ p.1 ++ utf8 "' cannot be changed at runtime\n"))

/-- Tries parameters one after the other. -/
def setAll (c : Config) : List (Text × Text) → Config × Reply
  | [] => (c, ∅)
  | p :: ps =>
    let one := setOne c p
    let rest := setAll one.1 ps
    (rest.1, one.2 ++ rest.2)

/-- The lines of a block of settings, put together to one text again. -/
def blockText (lines : List Text) : Text := Text.unlines (lines.map fun l => ⟨l, true⟩)

/-- Applies a block of settings; a bad line spoils all of it. -/
def setBlock (c : Config) (lines : List Text) : Config × Reply :=
  match Parameters.ofText (blockText lines) with
  | .error bad =>
    (c, ⟨utf8 "SET rejected: every line must be key=value\n", [bad.message]⟩)
  | .ok ps => setAll c ps.toList

/-- A line that ends a block of settings. -/
def endsBlock (line : Text) : Bool := line.isEmpty || line == [Byte.carriageReturn]

/-! ## Commands -/

def topReply (s : Statistics) (c : Config) (a : Option Attribute) (limit : Option Int) : Reply :=
  match a with
  | none => .say (utf8 "Unknown TOP target. Supported: hosts, clients, reasons\n")
  | some a =>
    ⟨Ranking.text (s.counter.top a (limit.getD c.topDefault)), (s.counter.counts a).notices⟩

/-- The reply to a command that only asks. -/
def reply (s : Statistics) (c : Config) : Command → Reply
  | .stats => .say (Report.ofSummary s.store.totals.summary)
  | .history none => .say (utf8 "Usage: HISTORY <start> <end>\n")
  | .history (some w) => .say (Report.ofSeries (s.store.view.report ⟨w.1, w.2⟩))
  | .top a limit => topReply s c a limit
  | .counters =>
    .say (utf8 "entries: " ++ Text.ofNat s.counter.entries.toNat ++ utf8 "  decode_errors: "
      ++ Text.ofNat s.counter.decodeErrors.toNat ++ utf8 "\n")
  | .rotate => .say (utf8 "new bucket started\n")
  | .help => .say helpText
  | .unknown => .say (utf8 "Unknown command\n")
  | .blank | .set | .quit => ∅

/-- What a command does to the statistics: only one of them starts a bucket. -/
def effect : Command → Statistics → Statistics
  | .rotate, s => { s with store := s.store.rotate }
  | _, s => s

/-- What the console expects after a command. -/
def modeAfter : Command → Mode
  | .set => .block []
  | .quit => .closed
  | _ => .ready

/-- Commands are followed by a prompt once they are done. -/
def promptAfter : Mode → Reply
  | .ready => .say prompt
  | _ => ∅

/-! ## Lines of input -/

/-- Ends a block of settings and does what it asks for. -/
def settle (c : Console) (lines : List Text) : Console × Reply :=
  let set := setBlock c.config lines
  ({ c with config := set.1, mode := .ready }, set.2 ++ .say prompt)

/-- Takes in a line. -/
def feed (c : Console) (l : Line) : Console × Reply :=
  match c.mode with
  | .closed => (c, ∅)
  | .block lines =>
    if endsBlock l.content then c.settle lines
    else ({ c with mode := .block (lines ++ [l.content]) }, ∅)
  | .ready =>
    let command := Command.read l.body
    ({ c with statistics := effect command c.statistics, mode := modeAfter command },
      reply c.statistics c.config command ++ promptAfter (modeAfter command))

def close (c : Console) : Console := { c with mode := .closed }

def isClosed (c : Console) : Bool := c.mode == .closed

/-- The end of the input closes the console, after a block of settings that it may be in. -/
def finish (c : Console) : Console × Reply :=
  match c.mode with
  | .block lines => ((c.settle lines).1.close, (c.settle lines).2)
  | _ => (c.close, ∅)

/-- The end of a session: the console, what it wrote and the lines it left unread. -/
structure Session where
  console : Console
  reply : Reply
  unread : List Line

/-- The part of the input that was left unread. -/
def Session.rest (s : Session) : Text := Text.unlines s.unread

/-- Takes in lines until one of them closes the console. -/
def feedAll (c : Console) : List Line → Session
  | [] => ⟨c.finish.1, c.finish.2, []⟩
  | l :: ls =>
    if c.isClosed then ⟨c, ∅, l :: ls⟩
    else
      let step := c.feed l
      let rest := feedAll step.1 ls
      { rest with reply := step.2 ++ rest.reply }

/-- A session on an input.  If the service is stopping, the console greets and reads nothing. -/
def run (s : Statistics) (c : Config) (stopping : Bool) (input : Text) : Session :=
  let session := feedAll ⟨s, c, if stopping then .closed else .ready⟩ input.lines
  { session with reply := .say banner ++ session.reply }

end Console

end QueryStats
