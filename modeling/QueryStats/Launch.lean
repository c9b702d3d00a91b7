import QueryStats.Config
import QueryStats.Journal

/-! # Command line arguments -/

namespace QueryStats.Launch

/-- An argument together with its value. -/
inductive Argument where
  /-- a file of parameters, applied at once -/
  | config (path : Text)
  /-- a parameter, applied after all files -/
  | setting (key value : Text)
deriving DecidableEq, Repr

/-- How the arguments end. -/
inductive Ending where
  | complete
  | help
  | misuse
deriving DecidableEq, Repr

/-- How the program is called, under the name that it was called by. -/
def usage (program : Text) : Text :=
  utf8 "Usage: " ++ program ++ utf8 " [--config <file>] [--file <querylog.json>] [--follow]"
    ++ utf8 " [--workers N] [--qcap N] [--history N] [--bucket-seconds N] [--shards N]"
    ++ utf8 " [--top N] [--log-file <path>]\n"

/-- The flags that take a value. -/
def valueFlags : List (Text × (Text → Argument)) :=
  [(utf8 "--config", .config),
    (utf8 "--file", .setting (utf8 "file")),
    (utf8 "--workers", .setting (utf8 "workers")),
    (utf8 "--qcap", .setting (utf8 "qcap")),
    (utf8 "--history", .setting (utf8 "history_elements")),
    (utf8 "--bucket-seconds", .setting (utf8 "bucket_seconds")),
    (utf8 "--shards", .setting (utf8 "shards")),
    (utf8 "--top", .setting (utf8 "top_default")),
    (utf8 "--log-file", .setting (utf8 "log_file"))]

def followArgument : Argument := .setting (utf8 "follow") (utf8 "true")

/-- Reads arguments up to the first that ends them.  A flag takes the next argument as its value,
whatever that looks like. -/
def read : List Text → List Argument × Ending
  | [] => ([], .complete)
  | a :: rest =>
    if a = utf8 "--follow" then (followArgument :: (read rest).1, (read rest).2)
    else if a = utf8 "--help" ∨ a = utf8 "-h" then ([], .help)
    else match valueFlags.lookup a, rest with
      | some flag, v :: rest => (flag v :: (read rest).1, (read rest).2)
      | _, _ => ([], .misuse)

/-- The parameters among arguments, the later of two with one key. -/
def settings (as : List Argument) : Parameters :=
  Parameters.ofPairs <| as.filterMap fun
    | .setting key value => some (key, value)
    | .config _ => none

/-- The files among arguments. -/
def configPaths (as : List Argument) : List Text :=
  as.filterMap fun
    | .config path => some path
    | .setting _ _ => none

/-- Loads files one after the other, as long as each can be loaded. -/
def loadAll (j : Journal) (c : Config) : List Text → Journal × Option Config
  | [] => (j, some c)
  | path :: paths =>
    let loaded := c.load path (j.directory.read? path)
    let j := j.report loaded.messages
    if loaded.ok then loadAll j loaded.config paths else (j, none)

/-- Files first, then the parameters of the command line. -/
def configure (j : Journal) (c : Config) (as : List Argument) : Journal × Option Config :=
  match loadAll j c (configPaths as) with
  | (j, none) => (j, none)
  | (j, some c) =>
    let ps := (settings as).toList
    (j.report (Config.refusals ps), some (c.apply ps))

end QueryStats.Launch
