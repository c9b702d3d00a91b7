import QueryStats.Counter
import QueryStats.Json.Reader
import QueryStats.Store

/-! # Taking in the query log -/

namespace QueryStats

namespace Entry

/-- Values that are neither texts nor numbers nor objects count as absent.  Of two members with one
key the later counts. -/
def ofJson : Json → Option Entry
  | .text t => some (text t)
  | .number negative magnitude =>
    let x := if negative then -magnitude.toFloat else magnitude.toFloat
    if x.isFinite then some (number x) else none
  | .object members => (ofMembers members []).map object
  | _ => some absent
where
  /-- The members in reverse order, before those already at hand. -/
  ofMembers : List (Text × Json) → List (Text × Entry) → Option (List (Text × Entry))
    | [], done => some done
    | (k, v) :: members, done => (ofJson v).bind fun e => ofMembers members ((k, e) :: done)

/-- The entry that a line of the query log holds: a valid text of one object. -/
def ofLine? (line : Text) : Option Entry :=
  if (ByteArray.mk line.toArray).validateUTF8 then
    match Json.read? line with
    | some (.object members) => ofJson (.object members)
    | _ => none
  else none

/-- What the totals keep of an entry. -/
def query (e : Entry) : Query Float := ⟨e.category, e.elapsed?⟩

end Entry

/-- Entries counted by what they say, and totals of them by bucket. -/
structure Statistics where
  counter : Counter
  store : Store Float

namespace Statistics

def create (hash : Text → UInt64) (shards history : Nat) : Statistics :=
  ⟨.create hash shards, .create history⟩

/-- What is reported when statistics are made. -/
def notices (shards history : Nat) : List Message :=
  Counter.notices shards ++ Store.notices history

/-- Counts an entry on both sides. -/
def ingest (e : Entry) (s : Statistics) : Statistics :=
  ⟨s.counter.add e, s.store.record e.query⟩

/-- How many undecodable lines a worker reports. -/
def maxReported : Nat := 5

/-- Takes in a line of the query log; empty lines are passed over.  `reported` is the number of
undecodable lines that were reported before. -/
def ingestLine (line : Text) (reported : Nat) (s : Statistics) :
    Statistics × Nat × List Message :=
  if line.isEmpty then (s, reported, [])
  else match Entry.ofLine? line with
    | some e => (s.ingest e, reported, [])
    | none =>
      let s := { s with counter := s.counter.addDecodeError }
      if reported < maxReported then (s, reported + 1, [.undecodable line]) else (s, reported, [])

end Statistics

end QueryStats
