import QueryStats.Counts
import QueryStats.Entry
import QueryStats.Ranking

/-! # Entries counted by host, client and reason -/

namespace QueryStats

/-- What entries are counted by. -/
inductive Attribute where
  | hosts
  | clients
  | reasons
deriving DecidableEq, Repr

namespace Attribute

/-- The key under which an entry is counted; an empty one is not counted. -/
def key : Attribute → Entry → Text
  | hosts => Entry.host
  | clients => Entry.client
  | reasons => Entry.reason

/-- The word for an attribute in a command. -/
def word : Attribute → Text
  | hosts => utf8 "hosts"
  | clients => utf8 "clients"
  | reasons => utf8 "reasons"

def ofWord? (w : Text) : Option Attribute := [hosts, clients, reasons].find? (·.word == w)

/-- An attribute is found by its word. -/
@[simp] theorem ofWord?_word (a : Attribute) : ofWord? a.word = some a := by cases a <;> decide

end Attribute

/-- Totals since the start, and counts for each attribute. -/
structure Counter where
  entries : UInt64
  /-- lines that hold no entry -/
  decodeErrors : UInt64
  hosts : Counts
  clients : Counts
  reasons : Counts

namespace Counter

def create (hash : Text → UInt64) (shards : Nat) : Counter :=
  ⟨0, 0, .create hash shards, .create hash shards, .create hash shards⟩

/-- What is reported when a counter is made. -/
def notices (shards : Nat) : List Message := [.counterReady shards (Counts.shardsFor shards)]

def counts (c : Counter) : Attribute → Counts
  | .hosts => c.hosts
  | .clients => c.clients
  | .reasons => c.reasons

/-- Counts a key once, unless it is empty. -/
def tally (key : Text) (c : Counts) : Counts := if key.isEmpty then c else c.add key 1

def add (e : Entry) (c : Counter) : Counter :=
  { c with
    entries := c.entries + 1
    hosts := tally e.host c.hosts
    clients := tally e.client c.clients
    reasons := tally e.reason c.reasons }

def addDecodeError (c : Counter) : Counter := { c with decodeErrors := c.decodeErrors + 1 }

def reset (c : Counter) : Counter := ⟨0, 0, c.hosts.clear, c.clients.clear, c.reasons.clear⟩

/-- The `n` keys of an attribute that were counted most. -/
def top (a : Attribute) (n : Int) (c : Counter) : List Tally :=
  Ranking.top n (c.counts a).merged.toList

/-- An entry counts for its key under each attribute. -/
@[simp] theorem counts_add (a : Attribute) (e : Entry) (c : Counter) :
    (c.add e).counts a = tally (a.key e) (c.counts a) := by cases a <;> rfl

/-- A line that could not be decoded counts for no key. -/
@[simp] theorem counts_addDecodeError (a : Attribute) (c : Counter) :
    c.addDecodeError.counts a = c.counts a := by cases a <;> rfl

@[simp] theorem counts_reset (a : Attribute) (c : Counter) :
    c.reset.counts a = (c.counts a).clear := by cases a <;> rfl

end Counter

end QueryStats
