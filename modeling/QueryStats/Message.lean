import QueryStats.Text

/-! # What the service reports about itself -/

namespace QueryStats

/-- Why the service cannot start. -/
inductive StartFailure where
  /-- no list is long enough for the workers -/
  | tooMany
  /-- there is no memory for a list of the workers -/
  | outOfMemory
  /-- the system gives no more threads -/
  | noThread
deriving DecidableEq, Repr

def StartFailure.text : StartFailure → Text
  | tooMany => utf8 "vector::reserve"
  | outOfMemory => utf8 "std::bad_alloc"
  | noThread => utf8 "Resource temporarily unavailable"

/-- A line for the operator's log, by its cause. -/
inductive Message where
  /-- the requested number of buckets was replaced -/
  | historyAdjusted (requested used : Nat)
  | counterReady (requested shards : Nat)
  /-- a merged count has more keys than expected -/
  | largeMerge (entries : Nat)
  | invalidLine (number : Nat) (line : Text)
  | unknownKey (key : Text)
  | badValue (key value : Text)
  | configUnreadable (path : Text)
  | configMalformed (path : Text)
  | started (input : Text) (follow : Bool) (workers capacity history bucketSeconds : Nat)
  | startFailed (failure : StartFailure)
  | inputUnreadable (path : Text)
  | undecodable (line : Text)
  | stopping
  | backlog (highWater capacity : Nat)
  | stopped
deriving DecidableEq, Repr

namespace Message

/-- How much of a line that cannot be decoded is shown. -/
def shownBytes : Nat := 200

def text : Message → Text
  | historyAdjusted requested used =>
    utf8 "PeriodicStats: history_elements=" ++ Text.ofNat requested
      ++ utf8 " out of range; using " ++ Text.ofNat used
  | counterReady requested shards =>
    utf8 "QueryCounter ctor: shards_req=" ++ Text.ofNat requested
      ++ utf8 " shards=" ++ Text.ofNat shards
  | largeMerge entries =>
    utf8 "ShardedCounts::snapshot: merged total entries=" ++ Text.ofNat entries
  | invalidLine number line =>
    utf8 "parse_parameters_from_body: invalid line " ++ Text.ofNat number ++ utf8 ": " ++ line
  | unknownKey key => utf8 "config: unknown key '" ++ key ++ utf8 "' ignored"
  | badValue key value => utf8 "config: bad value for '" ++ key ++ utf8 "': " ++ value
  | configUnreadable path => utf8 "config: cannot open " ++ path
  | configMalformed path => utf8 "config: malformed " ++ path
  | started input follow workers capacity history bucketSeconds =>
    utf8 "Starting StatPulse; file=" ++ (if input.isEmpty then utf8 "<stdin>" else input)
      ++ utf8 " follow=" ++ (if follow then utf8 "true" else utf8 "false")
      ++ utf8 " workers=" ++ Text.ofNat workers
      ++ utf8 " qcap=" ++ Text.ofNat capacity
      ++ utf8 " history_elements=" ++ Text.ofNat history
      ++ utf8 " bucket_seconds=" ++ Text.ofNat bucketSeconds
  | startFailed failure => utf8 "StatPulse startup exception: " ++ failure.text
  | inputUnreadable path => utf8 "producer: Failed to open " ++ path
  | undecodable line => utf8 "worker: cannot decode query-log line: " ++ line.take shownBytes
  | stopping => utf8 "Shutdown: setting terminate flag"
  | backlog highWater capacity =>
    utf8 "Line queue high-water mark: " ++ Text.ofNat highWater
      ++ utf8 " of " ++ Text.ofNat capacity
  | stopped => utf8 "StatPulse shutting down normally."

/-- The messages as they are written, each on a line of its own. -/
def transcript (ms : List Message) : Text := ms.flatMap fun m => m.text ++ [Byte.newline]

@[simp] theorem transcript_nil : transcript [] = [] := rfl

/-- Each message is a line of the log. -/
@[simp] theorem transcript_cons (m : Message) (ms : List Message) :
    transcript (m :: ms) = m.text ++ [Byte.newline] ++ transcript ms := rfl

/-- Messages are logged one after the other. -/
@[simp] theorem transcript_append (ms ns : List Message) :
    transcript (ms ++ ns) = transcript ms ++ transcript ns := List.flatMap_append

end Message

end QueryStats
