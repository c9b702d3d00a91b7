import QueryStats.Counter
import QueryStats.Numeral

/-! # Commands of the console -/

namespace QueryStats

/-- A line of console input. -/
inductive Command where
  | blank
  | stats
  /-- the window is missing when its numbers cannot be read -/
  | history (window : Option (Int × Int))
  /-- the target is missing when its word is unknown, the limit when no number can be read -/
  | top (target : Option Attribute) (limit : Option Int)
  | counters
  | rotate
  | set
  | help
  | quit
  | unknown
deriving DecidableEq, Repr

namespace Command

/-- Two integers of 32 bits at the front of a text. -/
def window? (t : Text) : Option (Int × Int) :=
  (Numeral.scanInt32 t).bind fun first =>
    (Numeral.scanInt32 first.2).map fun last => (first.1, last.1)

def ofWord (word rest : Text) : Command :=
  if word = utf8 "STATS" then stats
  else if word = utf8 "HISTORY" then history (window? rest)
  else if word = utf8 "TOP" then
    let target := rest.word
    top (Attribute.ofWord? target.1) ((Numeral.scanInt32 target.2).map (·.1))
  else if word = utf8 "COUNTERS" then counters
  else if word = utf8 "ROTATE" then rotate
  else if word = utf8 "SET" then set
  else if word = utf8 "HELP" then help
  else if word = utf8 "QUIT" ∨ word = utf8 "EXIT" then quit
  else unknown

/-- The command on a line; its first word decides, and words too many do no harm. -/
def read (line : Text) : Command :=
  if line.isEmpty then blank else ofWord (Text.word line).1 (Text.word line).2

end Command

end QueryStats
