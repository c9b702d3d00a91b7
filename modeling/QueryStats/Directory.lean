import QueryStats.Path
import Std.Data.ExtTreeMap

/-! # The working directory -/

namespace QueryStats

/-- The working directory and what is known of the machine around it. -/
structure Directory where
  /-- the contents of files by the shortest path to them -/
  files : Std.ExtTreeMap Text Text
  /-- the shortest paths to the folders that there are on the machine -/
  folders : List Text
  /-- how many folders lie between the root and the working directory -/
  ancestors : Nat

/-- What a path leads to. -/
inductive Place where
  | folder
  | file (path : Text)
  /-- takes all bytes and gives none -/
  | sink
  | nowhere
deriving DecidableEq, Repr

namespace Directory

/-- An empty folder in a folder below the root of a machine with no other folders. -/
def empty : Directory := ⟨∅, [], 1⟩

/-- The sink of a machine that has a folder of devices. -/
def nullDevice : Text := utf8 "/dev/null"

/-- The root, the working directory, the folders above it and those of the machine. -/
def isFolder (d : Directory) (l : Location) : Bool :=
  l.names.isEmpty || d.folders.contains l.text

/-- The locations that steps lead through, the first and the last among them. -/
def trail (d : Directory) (l : Location) : List Text → List Location
  | [] => [l]
  | name :: steps => l :: trail d (l.step d.ancestors name) steps

/-- Follows steps.  All locations on the way must be folders. -/
def follow? (d : Directory) (l : Location) : List Text → Option Location
  | [] => some l
  | name :: steps => if d.isFolder l then follow? d (l.step d.ancestors name) steps else none

/-- Follows a path.  A file need not exist, but its folder must. -/
def place (d : Directory) (path : Text) : Place :=
  match (Path.read? path).bind fun p => (d.follow? p.start p.steps).map (p, ·) with
  | none => .nowhere
  | some (p, l) =>
    if d.isFolder l then .folder
    else if p.folderOnly || l.names.any (Path.maxName < ·.length) then .nowhere
    else if l.text = nullDevice then .sink
    else .file l.text

/-- The bytes read from a path, if it can be opened.  A folder can be, and holds none. -/
def read? (d : Directory) (path : Text) : Option Text :=
  match d.place path with
  | .folder | .sink => some []
  | .file name => d.files[name]?
  | .nowhere => none

/-- Makes a file with some bytes, or replaces what it had.  Nothing happens if the path is not that
of a file. -/
def write (d : Directory) (path t : Text) : Directory :=
  match d.place path with
  | .file name => { d with files := d.files.insert name t }
  | _ => d

/-- Makes files, one after the other. -/
def writeAll (d : Directory) (files : List (Text × Text)) : Directory :=
  files.foldl (fun d f => d.write f.1 f.2) d

def ofFiles (files : List (Text × Text)) : Directory := empty.writeAll files

/-- Adds bytes at the end of a file, which is made if it is missing.  Nothing happens if the path
is not that of a file. -/
def append (d : Directory) (path t : Text) : Directory :=
  match d.place path with
  | .file name => { d with files := d.files.alter name fun content => some (content.getD [] ++ t) }
  | _ => d

/-- The files of the working directory itself, in the order of their names. -/
def listing (d : Directory) : List (Text × Text) :=
  d.files.toList.filter fun f => !f.1.contains Byte.slash

end Directory

end QueryStats
