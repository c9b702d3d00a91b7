import QueryStats.Directory
import QueryStats.Message

/-! # The operator's log -/

namespace QueryStats

/-- Where messages go: to the standard error stream and to the end of a file. -/
structure Journal where
  stderr : Text
  /-- the path of the file that messages are copied to; empty for none -/
  path : Text
  directory : Directory

namespace Journal

def create (path : Text) (directory : Directory) : Journal := ⟨[], path, directory⟩

def redirect (path : Text) (j : Journal) : Journal := { j with path := path }

/-- Writes to the standard error stream alone. -/
def print (t : Text) (j : Journal) : Journal := { j with stderr := j.stderr ++ t }

/-- Writes a line to the standard error stream and to the file. -/
def log (t : Text) (j : Journal) : Journal :=
  { j with
    stderr := j.stderr ++ (t ++ [Byte.newline])
    directory :=
      if j.path.isEmpty then j.directory else j.directory.append j.path (t ++ [Byte.newline]) }

def report (ms : List Message) (j : Journal) : Journal := ms.foldl (fun j m => j.log m.text) j

/-! ## Runs -/

/-- What can happen to a journal. -/
inductive Event where
  | redirect (path : Text)
  | log (t : Text)
deriving DecidableEq, Repr

def apply (j : Journal) : Event → Journal
  | .redirect path => j.redirect path
  | .log t => j.log t

def run (j : Journal) (es : List Event) : Journal := es.foldl apply j

@[simp] theorem run_nil (j : Journal) : j.run [] = j := rfl
@[simp] theorem run_cons (j : Journal) (e : Event) (es : List Event) :
    j.run (e :: es) = (j.apply e).run es := rfl

@[simp] theorem report_nil (j : Journal) : j.report [] = j := rfl
@[simp] theorem report_cons (m : Message) (ms : List Message) (j : Journal) :
    j.report (m :: ms) = (j.log m.text).report ms := rfl

@[simp] theorem path_log (t : Text) (j : Journal) : (j.log t).path = j.path := rfl
@[simp] theorem path_redirect (p : Text) (j : Journal) : (j.redirect p).path = p := rfl
@[simp] theorem stderr_redirect (p : Text) (j : Journal) : (j.redirect p).stderr = j.stderr := rfl
@[simp] theorem directory_redirect (p : Text) (j : Journal) :
    (j.redirect p).directory = j.directory := rfl

end Journal

end QueryStats
