import QueryStats.Message
import QueryStats.Numeral
import QueryStats.Parameters

/-! # Configuration of the service -/

namespace QueryStats

structure Config where
  /-- the query log; empty for the standard input -/
  file : Text := []
  /-- go on reading when the end of the query log is reached -/
  follow : Bool := false
  /-- zero for one worker per processor -/
  workers : UInt64 := 0
  /-- how many lines may wait for a worker -/
  capacity : UInt64 := 65536
  history : UInt64 := 60
  /-- the length of a bucket; zero for a single one -/
  bucketSeconds : UInt32 := 0
  shards : UInt64 := 16
  /-- how many keys a ranking shows when nothing is asked for -/
  topDefault : Int := 10
  logFile : Text := utf8 "statpulse.err.log"
deriving DecidableEq, Repr

/-- A new value for one field of the configuration. -/
inductive Setting where
  | file (t : Text)
  | follow (b : Bool)
  | workers (n : UInt64)
  | capacity (n : UInt64)
  | history (n : UInt64)
  | bucketSeconds (n : UInt32)
  | shards (n : UInt64)
  | topDefault (n : Int)
  | logFile (t : Text)
deriving DecidableEq, Repr

/-- Why a parameter is no setting. -/
inductive Refusal where
  | unknownKey (key : Text)
  | badValue (key value : Text)
deriving DecidableEq, Repr

def Refusal.message : Refusal → Message
  | unknownKey key => .unknownKey key
  | badValue key value => .badValue key value

namespace Setting

/-- A number that takes up all of a text.  A text that starts with a minus is refused; a minus
after blanks wraps round at 64 bits. -/
def number? (t : Text) : Option UInt64 :=
  if t.head? = some Byte.minus then none
  else match Numeral.scan t with
    | some (n, []) => n.toWord?
    | _ => none

def flag? (t : Text) : Option Bool :=
  if [utf8 "1", utf8 "true", utf8 "yes", utf8 "on"].contains t then some true
  else if [utf8 "0", utf8 "false", utf8 "no", utf8 "off"].contains t then some false
  else none

/-- The greatest default length of a ranking. -/
def maxTopDefault : UInt64 := 10000

/-- The readers of values by key. -/
def readers : List (Text × (Text → Option Setting)) :=
  [(utf8 "file", fun v => some (file v)),
    (utf8 "log_file", fun v => some (logFile v)),
    (utf8 "follow", fun v => (flag? v).map follow),
    (utf8 "top_default", fun v => (number? v).bind fun n =>
      if n ≤ maxTopDefault then some (topDefault n.toNat) else none),
    (utf8 "workers", fun v => (number? v).map workers),
    (utf8 "qcap", fun v => (number? v).map fun n => capacity (if n = 0 then 1 else n)),
    (utf8 "history_elements", fun v => (number? v).map history),
    (utf8 "bucket_seconds", fun v => (number? v).map fun n => bucketSeconds n.toUInt32),
    (utf8 "shards", fun v => (number? v).map shards)]

/-- Reads a parameter; no configuration has a say in whether it is accepted. -/
def read (p : Text × Text) : Except Refusal Setting :=
  match readers.lookup p.1 with
  | none => .error (.unknownKey p.1)
  | some reader => match reader p.2 with
    | none => .error (.badValue p.1 p.2)
    | some s => .ok s

def read? (p : Text × Text) : Option Setting := (read p).toOption

def refusal? (p : Text × Text) : Option Refusal :=
  match read p with
  | .error r => some r
  | .ok _ => none

end Setting

namespace Config

/-- Each setting changes its own field. -/
def put (c : Config) : Setting → Config
  | .file t => { c with file := t }
  | .follow b => { c with follow := b }
  | .workers n => { c with workers := n }
  | .capacity n => { c with capacity := n }
  | .history n => { c with history := n }
  | .bucketSeconds n => { c with bucketSeconds := n }
  | .shards n => { c with shards := n }
  | .topDefault n => { c with topDefault := n }
  | .logFile t => { c with logFile := t }

/-- The configuration with those parameters that are settings. -/
def apply (c : Config) (ps : List (Text × Text)) : Config :=
  (ps.filterMap Setting.read?).foldl put c

/-- How many parameters are settings. -/
def applied (ps : List (Text × Text)) : Nat := (ps.filterMap Setting.read?).length

/-- What is reported of the other parameters. -/
def refusals (ps : List (Text × Text)) : List Message :=
  (ps.filterMap Setting.refusal?).map Refusal.message

/-- Every parameter is either applied or refused. -/
theorem applied_add_length_refusals (ps : List (Text × Text)) :
    applied ps + (refusals ps).length = ps.length := by
  induction ps with
  | nil => rfl
  | cons p ps ih =>
    simp only [applied, refusals, List.length_map] at ih ⊢
    cases h : Setting.read p with
    | error r =>
      rw [List.filterMap_cons_none (by simp [Setting.read?, h, Except.toOption]),
        List.filterMap_cons_some (b := r) (by simp [Setting.refusal?, h])]
      simp only [List.length_cons]
      omega
    | ok s =>
      rw [List.filterMap_cons_some (b := s) (by simp [Setting.read?, h, Except.toOption]),
        List.filterMap_cons_none (by simp [Setting.refusal?, h])]
      simp only [List.length_cons]
      omega

/-- What loading a file leaves behind. -/
structure Loaded where
  /-- the configuration afterwards, whether or not the file was loaded -/
  config : Config
  /-- the file could be read and had no bad line -/
  ok : Bool
  messages : List Message

/-- Applies the parameters that a file holds to a configuration. -/
def load (c : Config) (path : Text) (content : Option Text) : Loaded :=
  match content.map Parameters.ofText with
  | none => ⟨c, false, [.configUnreadable path]⟩
  | some (.error bad) => ⟨c, false, [bad.message, .configMalformed path]⟩
  | some (.ok ps) => ⟨c.apply ps.toList, true, refusals ps.toList⟩

end Config

end QueryStats
