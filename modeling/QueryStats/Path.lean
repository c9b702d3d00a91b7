import QueryStats.Text

/-! # Paths and the locations that they lead to -/

namespace QueryStats

/-- A path as the names of its steps. -/
structure Path where
  /-- starts at the root and not at the working directory -/
  absolute : Bool
  steps : List Text
  /-- ends in a slash or in a dot, as only a path of a folder may -/
  folderOnly : Bool
deriving DecidableEq, Repr

namespace Path

def dot : Text := [Byte.point]

/-- The step to the folder above. -/
def up : Text := [Byte.point, Byte.point]

/-- The longest name that a file can have. -/
def maxName : Nat := 255

/-- The longest path that can be followed, however few steps it has. -/
def maxLength : Nat := 4095

/-- Reads a path, which ends before its first zero byte.  Empty names and dots are no steps. -/
def read? (t : Text) : Option Path :=
  let t := t.untilZero
  if t.isEmpty || maxLength < t.length then none
  else
    let names := t.splitOn Byte.slash
    some ⟨t.head? == some Byte.slash, names.filter (fun n => !n.isEmpty && n != dot),
      [some [], some dot, some up].contains names.getLast?⟩

end Path

/-- A location in the tree of folders, by the names that lead down to it from the root or from a
folder above the working directory. -/
structure Location where
  /-- how many levels above the working directory the names start; nothing for the root -/
  above : Option Nat
  names : List Text
deriving DecidableEq, Repr

namespace Location

def root : Location := ⟨none, []⟩

/-- The working directory. -/
def here : Location := ⟨some 0, []⟩

/-- The shortest path to a location. -/
def text (l : Location) : Text :=
  match l.above with
  | none => Byte.slash :: List.intercalate [Byte.slash] l.names
  | some levels => List.intercalate [Byte.slash] (List.replicate levels Path.up ++ l.names)

/-- The folder above, if `ancestors` folders lie between the root and the working directory.  The
root is above itself. -/
def parent (ancestors : Nat) (l : Location) : Location :=
  match l.names, l.above with
  | _ :: _, _ => { l with names := l.names.dropLast }
  | [], none => root
  | [], some levels => if levels < ancestors then ⟨some (levels + 1), []⟩ else root

/-- The location that a step leads to. -/
def step (ancestors : Nat) (l : Location) (name : Text) : Location :=
  if name = Path.up then l.parent ancestors else { l with names := l.names ++ [name] }

end Location

/-- Where a path starts. -/
def Path.start (p : Path) : Location := if p.absolute then .root else .here

end QueryStats
