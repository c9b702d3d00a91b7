import QueryStats.Category
import QueryStats.Decimal.Literal

/-! # Decoded log entries -/

namespace QueryStats

/-- A log entry, or the value of one of its members.  Only texts, numbers and objects carry a
meaning; everything else counts as absent. -/
inductive Entry where
  | absent
  | text (t : Text)
  | number (x : Float)
  | object (members : List (Text × Entry))

namespace Entry

/-- The text up to its first zero byte; a missing text is empty. -/
def ofZeroTerminated (t : Option Text) : Entry := text (t.getD []).untilZero

def text? : Entry → Option Text
  | text t => some t
  | _ => none

def number? : Entry → Option Float
  | number x => some x
  | _ => none

def isObject : Entry → Bool
  | object _ => true
  | _ => false

def isAbsent : Entry → Bool
  | absent => true
  | _ => false

/-- The value of a member, absent if there is none. -/
def get (key : Text) : Entry → Entry
  | object members => (members.lookup key).getD absent
  | _ => absent

/-- The value at the end of a path of members. -/
def getPath (path : List Text) (e : Entry) : Entry := path.foldl (fun e key => e.get key) e

@[simp] theorem get_absent (key : Text) : absent.get key = absent := rfl
@[simp] theorem get_text (key t : Text) : (text t).get key = absent := rfl
@[simp] theorem get_number (key : Text) (x : Float) : (number x).get key = absent := rfl

/-- The text of a value, empty for values of another kind. -/
def textOrEmpty (e : Entry) : Text := e.text?.getD []

/-! ## The members that are counted -/

def host (e : Entry) : Text := ((e.get (utf8 "question")).get (utf8 "host")).textOrEmpty

def reason (e : Entry) : Text := (e.get (utf8 "reason")).textOrEmpty

def client (e : Entry) : Text := (e.get (utf8 "client")).textOrEmpty

def category (e : Entry) : Category := Category.ofReason e.reason

/-! ## How long a query took -/

/-- Seconds from milliseconds.  Durations that are infinite, not a number or negative are refused,
since one of them would spoil every later sum. -/
def secondsOfMillis? (ms : Float) : Option Float :=
  if ms.isFinite && !(ms < 0) then some (ms / 1000) else none

/-- The duration of a query, given as a number or as a plain decimal number in a text. -/
def elapsed? (e : Entry) : Option Float :=
  match e.get (utf8 "elapsedMs") with
  | number x => secondsOfMillis? x
  | text t => (Decimal.Literal.read? t).bind fun d => secondsOfMillis? d.toFloat
  | _ => none

end Entry

end QueryStats
