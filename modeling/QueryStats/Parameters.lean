import QueryStats.Message
import QueryStats.Text.Line
import Std.Data.ExtTreeMap

/-! # Parameters written one to a line -/

namespace QueryStats

/-- A value for each key. -/
abbrev Parameters := Std.ExtTreeMap Text Text

/-- The first line that is neither empty nor an assignment; lines are numbered from one. -/
structure BadLine where
  number : Nat
  content : Text
deriving DecidableEq, Repr

def BadLine.message (b : BadLine) : Message := .invalidLine b.number b.content

namespace Parameters

/-- The parameters of pairs; of two with one key the later counts. -/
def ofPairs (ps : List (Text × Text)) : Parameters := ps.foldl (fun m p => m.insert p.1 p.2) ∅

/-- Of the values assigned to a key the last one counts, then the one that was there. -/
theorem getElem?_foldl_insert (ps : List (Text × Text)) (m : Parameters) (k : Text) :
    (ps.foldl (fun m p => m.insert p.1 p.2) m)[k]? = (ps.reverse.lookup k).or m[k]? := by
  induction ps generalizing m with
  | nil => simp
  | cons p ps ih =>
    obtain ⟨key, value⟩ := p
    rw [List.foldl_cons, ih, Std.ExtTreeMap.getElem?_insert, List.reverse_cons, List.lookup_append]
    by_cases h : key = k
    · cases ps.reverse.lookup k <;> simp [h]
    · have h' : (k == key) = false := by simpa using Ne.symm h
      cases ps.reverse.lookup k <;> simp [h, h', List.lookup_cons]

/-- Of the values assigned to a key the last one counts. -/
theorem getElem?_ofPairs (ps : List (Text × Text)) (k : Text) :
    (ofPairs ps)[k]? = ps.reverse.lookup k := by
  simp [ofPairs, getElem?_foldl_insert]

/-- The key before the first equals sign and the value after it, without the blanks around them. -/
def assignment? (line : Text) : Option (Text × Text) :=
  (Text.splitAt? Byte.equals line).map fun p => (p.1.trim, p.2.trim)

/-- A line that can be passed over, or read. -/
def isFine (line : Text) : Bool := line.isEmpty || line.contains Byte.equals

/-- The first of some lines that is not fine, with its number. -/
def badLine? (lines : List Text) : Option BadLine :=
  ((lines.zipIdx 1).find? fun l => !isFine l.1).map fun l => ⟨l.2, l.1⟩

/-- The parameters on some lines.  Empty lines are passed over, and one bad line spoils all. -/
def ofLines (lines : List Text) : Except BadLine Parameters :=
  match badLine? lines with
  | some bad => .error bad
  | none => .ok (ofPairs (lines.filterMap assignment?))

/-- The parameters in a text.  A line may end in a carriage return. -/
def ofText (t : Text) : Except BadLine Parameters := ofLines (t.lines.map Line.body)

/-- What is reported of a text that is read. -/
def notices (t : Text) : List Message :=
  match ofText t with
  | .error bad => [bad.message]
  | .ok _ => []

end Parameters

end QueryStats
