import QueryStats.Console
import QueryStats.Launch
import QueryStats.Queue

/-! # The service from start to stop

One worker takes each line of the query log as soon as it is queued.  A query log that is followed
is read to its present end, and no bucket is started by the clock. -/

namespace QueryStats

/-- The lines of the query log on their way into the statistics. -/
structure Intake where
  queue : Queue Text
  statistics : Statistics
  /-- how many undecodable lines were reported -/
  reported : Nat
  messages : List Message

namespace Intake

/-- Queues a line and has it taken. -/
def take (i : Intake) (line : Text) : Intake :=
  match (i.queue.push line).2.pop with
  | (.done (some line), queue) =>
    let r := i.statistics.ingestLine line i.reported
    ⟨queue, r.1, r.2.1, i.messages ++ r.2.2⟩
  | (_, queue) => { i with queue := queue }

def takeAll (i : Intake) (t : Text) : Intake := (t.lines.map Line.content).foldl take i

end Intake

namespace Service

/-- What the service finds on the machine that it runs on. -/
structure Machine where
  /-- how many processors there are; zero if the machine does not tell -/
  processors : UInt64
  /-- the length of the longest list of workers that there is memory for -/
  listable : Nat
  /-- how many threads can be started -/
  threads : Nat

/-- What a run of the service leaves behind. -/
structure Outcome where
  /-- nothing if the program was aborted -/
  exitCode : Option Nat
  stdout : Text
  journal : Journal

/-- The number of workers when neither the configuration nor the machine gives one. -/
def fallbackWorkers : UInt64 := 4

def workers (c : Config) (processors : UInt64) : UInt64 :=
  if c.workers ≠ 0 then c.workers else if processors ≠ 0 then processors else fallbackWorkers

/-- No list of workers can be longer. -/
def maxWorkers : Nat := 0xfffffffffffffff

/-- What comes of starting the threads of the service. -/
inductive Muster where
  | complete
  /-- is reported, and the service stops -/
  | failed (failure : StartFailure)
  /-- ends the program on the spot -/
  | aborted
deriving DecidableEq, Repr

/-- Starts a thread that reads the query log, one for each worker, and one for the clock if buckets
have a length.  Where there is no thread for a worker behind the first one, those that run already
are not waited for, which aborts the program. -/
def muster (c : Config) (m : Machine) : Muster :=
  let count := (workers c m.processors).toNat
  if m.threads = 0 then .failed .noThread
  else if maxWorkers < count then .failed .tooMany
  else if m.listable < count then .failed .outOfMemory
  else if m.threads = 1 then .failed .noThread
  else if m.threads < 1 + count then .aborted
  else if c.bucketSeconds ≠ 0 ∧ m.threads = 1 + count then .failed .noThread
  else .complete

def started (c : Config) (processors : UInt64) : Message :=
  .started c.file c.follow (workers c processors).toNat c.capacity.toNat c.history.toNat
    c.bucketSeconds.toNat

/-- The statistics and the queue before the first line. -/
def intake (c : Config) : Intake where
  queue := .create c.capacity.toNat
  statistics := .create Counts.defaultHash c.shards.toNat c.history.toNat
  reported := 0
  messages := Statistics.notices c.shards.toNat c.history.toNat

/-- The configuration that arguments ask for, or the exit code with which the service gives up. -/
def configure (program : Text) (arguments : List Text) (j : Journal) :
    Journal × Except Nat Config :=
  match Launch.read arguments with
  | (as, .complete) =>
    match Launch.configure j {} as with
    | (j, none) => (j, .error 1)
    | (j, some c) => (j, .ok c)
  | (as, ending) =>
    match Launch.loadAll j {} (Launch.configPaths as) with
    | (j, none) => (j, .error 1)
    | (j, some _) => (j.print (Launch.usage program), .error (if ending = .help then 0 else 1))

/-- Turns to the log file of the configuration. -/
def start (c : Config) (processors : UInt64) (j : Journal) : Journal :=
  (j.redirect c.logFile).report [started c processors]

/-- Takes in the query log, if its file can be read.  A file that is followed may come later. -/
def load (c : Config) (content : Option Text) : Intake :=
  match content with
  | some t => (intake c).takeAll t
  | none =>
    let i := intake c
    if c.follow then i else { i with messages := i.messages ++ [.inputUnreadable c.file] }

/-- What is shown of a query log on the standard input: the totals and the hosts asked for most. -/
def summary (c : Config) (s : Statistics) : Reply :=
  .say (Report.ofSummary s.store.totals.summary) ++ Console.topReply s c (some .hosts) none

def stop (c : Config) (q : Queue Text) (j : Journal) : Journal :=
  j.report [.stopping, .backlog q.highWater c.capacity.toNat, .stopped]

/-- Runs with a configuration.  The query log comes from the standard input, or else from a file;
then the standard input is the console's. -/
def serve (c : Config) (stdin : Text) (j : Journal) : Text × Journal :=
  let i := if c.file.isEmpty then (intake c).takeAll stdin else load c (j.directory.read? c.file)
  let reply :=
    if c.file.isEmpty then summary c i.statistics
    else (Console.run i.statistics c false stdin).reply
  (reply.output, stop c i.queue ((j.report i.messages).report reply.messages))

/-- Stops before the first line of the query log is taken. -/
def giveUp (c : Config) (failure : StartFailure) (j : Journal) : Journal :=
  let i := intake c
  stop c i.queue (j.report (i.messages ++ [.startFailed failure]))

/-- Goes on with a configuration.  The exit code does not tell whether the workers could be
started. -/
def proceed (c : Config) (m : Machine) (stdin : Text) (j : Journal) : Outcome :=
  let j := start c m.processors j
  match muster c m with
  | .complete =>
    let served := serve c stdin j
    ⟨some 0, served.1, served.2⟩
  | .failed failure => ⟨some 0, [], giveUp c failure j⟩
  | .aborted => ⟨none, [], j.report (intake c).messages⟩

/-- Runs on arguments.  Each of them ends before its first zero byte, and so does the name that the
program was called by. -/
def run (program : Text) (arguments : List Text) (m : Machine) (stdin : Text) (d : Directory) :
    Outcome :=
  match configure program.untilZero (arguments.map Text.untilZero)
    (.create (Config.logFile {}) d) with
  | (j, .error code) => ⟨some code, [], j⟩
  | (j, .ok c) => proceed c m stdin j

end Service

end QueryStats
