import QueryStats.Service

/-! # The program

Reads what a run needs, calls it, and writes what it left behind. -/

namespace QueryStats.Program

def toBytes (t : Text) : ByteArray := ⟨t.toArray⟩

def ofBytes (b : ByteArray) : Text := b.data.toList

/-- The name of a path to the operating system. -/
def name (t : Text) : String := (String.fromUTF8? (toBytes t)).getD ""

/-- A folder is what has a dot in it. -/
def isFolder (l : Location) : IO Bool := do
  try
    discard (IO.FS.Handle.mk ((if l.text.isEmpty then "." else name l.text) ++ "/.") .read)
    return true
  catch _ => return false

def contents? (path : Text) : IO (Option Text) := do
  try return some (ofBytes (← IO.FS.readBinFile (name path)))
  catch _ => return none

def surveyFolder (d : Directory) (l : Location) : IO Directory := do
  return if ← isFolder l then { d with folders := l.text :: d.folders } else d

/-- Adds to a directory the folders that a path leads to and through. -/
def surveyPath (d : Directory) (t : Text) : IO Directory :=
  match Path.read? t with
  | some p => (d.trail p.start p.steps).foldlM surveyFolder d
  | none => return d

/-- Adds to a directory what is found at a path. -/
def survey (d : Directory) (t : Text) : IO Directory := do
  let d ← surveyPath d t
  match d.place t with
  | .file path =>
    match ← contents? path with
    | some content => return { d with files := d.files.insert path content }
    | none => return d
  | _ => return d

/-- The working directory before anything in it is looked at. -/
def workingDirectory : IO Directory := do
  let path := utf8 (← IO.currentDir).toString
  return { Directory.empty with ancestors := path.count Byte.slash - 1 }

def write (stream : IO.FS.Stream) (t : Text) : IO Unit := do
  stream.write (toBytes t)
  stream.flush

/-- Writes what a journal has more than it had before. -/
def flush (before after : Journal) : IO Unit := do
  write (← IO.getStderr) (after.stderr.drop before.stderr.length)
  for (path, content) in after.directory.files.toList do
    let old := before.directory.files[path]?
    if old != some content then
      try
        let file ← IO.FS.Handle.mk (name path) .append
        file.write (toBytes (content.drop (old.getD []).length))
      catch _ => pure ()

/-- Changes a journal and writes the change. -/
def update (j : Journal) (f : Journal → Journal) : IO Journal := do
  flush j (f j)
  return f j

partial def readAll (stream : IO.FS.Stream) (done : ByteArray) : IO ByteArray := do
  let more ← stream.read 65536
  if more.isEmpty then return done else readAll stream (done ++ more)

/-- The next line of a stream, if there is one. -/
partial def readLine (stream : IO.FS.Stream) (done : ByteArray) : IO (Option Line) := do
  let more ← stream.read 1
  if more.isEmpty then return if done.isEmpty then none else some ⟨ofBytes done, false⟩
  else if more[0]! == Byte.newline then return some ⟨ofBytes done, true⟩
  else readLine stream (done ++ more)

def answer (j : Journal) (r : Reply) : IO Journal := do
  write (← IO.getStdout) r.output
  update j (·.report r.messages)

/-- Hands line after line to the console until it is closed. -/
partial def converse (stdin : IO.FS.Stream) (c : Console) (j : Journal) : IO Journal := do
  if c.isClosed then return j
  match ← readLine stdin .empty with
  | none => answer j c.finish.2
  | some line => converse stdin (c.feed line).1 (← answer j (c.feed line).2)

def serve (c : Config) (j : Journal) : IO Unit := do
  let stdin ← IO.getStdin
  if c.file.isEmpty then
    let i := (Service.intake c).takeAll (ofBytes (← readAll stdin .empty))
    let j ← update j (·.report i.messages)
    let j ← answer j (Service.summary c i.statistics)
    discard (update j (Service.stop c i.queue))
  else
    let i := Service.load c (j.directory.read? c.file)
    let j ← update j (·.report i.messages)
    let j ← answer j (.say Console.banner)
    let j ← converse stdin ⟨i.statistics, c, .ready⟩ j
    discard (update j (Service.stop c i.queue))

/-- As large as anybody asks for, since no thread is started here. -/
def machine : Service.Machine := ⟨0, Service.maxWorkers, Service.maxWorkers + 2⟩

def run (program : Text) (arguments : List Text) : IO UInt32 := do
  let d ← surveyPath (← workingDirectory) (Config.logFile {})
  let d ← (Launch.configPaths (Launch.read arguments).1).foldlM survey d
  let j := Journal.create (Config.logFile {}) d
  let configured := Service.configure program arguments j
  flush j configured.1
  match configured with
  | (_, .error code) => return code.toUInt32
  | (j, .ok c) =>
    let d ← surveyPath (← survey j.directory c.file) c.logFile
    let j ← update { j with directory := d } (Service.start c machine.processors)
    match Service.muster c machine with
    | .failed failure => discard (update j (Service.giveUp c failure))
    | _ => serve c j
    return 0

end QueryStats.Program

def main (arguments : List String) : IO UInt32 := do
  let program ← IO.appPath
  QueryStats.Program.run (QueryStats.utf8 program.toString) (arguments.map QueryStats.utf8)
