import TreeQuery.Command.Help
import TreeQuery.Command.Report
import TreeQuery.Config
import TreeQuery.Records

/-!
# Running a command

A command is run against a disk. Its outcome is what it prints and the code it
exits with; only the time that a walk took is left open, for whoever prints the
outcome to fill in. `select` drives its walk as a selection: it pauses after
each match, prints the line, and resumes.

Beside the output there are notices, and among these are the lines that the
command writes to a log. Where the log is kept, and what its lines look like there,
is up to whoever prints the outcome; it may be switched off. What walks and disks
log on their own account is no notice of the command.
-/

namespace TreeQuery

/-- How much a line of the log matters. -/
inductive LogLevel
  | warn
  | info
  deriving DecidableEq, Repr, Inhabited

/-- A line of the log: a message, and what it is about. -/
structure LogLine where
  level : LogLevel
  message : String
  fields : List (String × String)
  deriving DecidableEq, Repr, Inhabited

namespace LogLine

/-- A walk for a query is about to begin. -/
def selecting (root : Path) (query : String) : LogLine :=
  ⟨.info, "selecting", [("root", root.text), ("query", query)]⟩

/-- A walk has failed at a path. -/
def walkFailed (path : Path) : LogLine :=
  ⟨.warn, "walk failed", [("path", path.text)]⟩

end LogLine

/-- What is printed beside the output. -/
inductive Notice
  | text (text : String)
  /-- How long the walk took. -/
  | elapsed
  | log (line : LogLine)
  deriving DecidableEq, Repr, Inhabited

namespace Notice

/-- The text of a notice, given what a line of the log looks like and the text of
a duration. -/
def shown (log : LogLine → String) (duration : String) : Notice → String
  | text t => t
  | elapsed => s!"elapsed {duration}\n"
  | .log line => log line

/-- The text of a notice where nothing is logged. -/
def render (duration : String) : Notice → String :=
  shown (fun _ => "") duration

end Notice

/-- What came of a command. -/
structure Outcome where
  code : Nat
  output : String := ""
  notices : List Notice := []
  deriving DecidableEq, Repr, Inhabited

namespace Outcome

/-- A command that failed. -/
def failed (text : String) : Outcome :=
  ⟨1, "", [.text text]⟩

/-- A command that printed all that it was asked for. -/
def printed (text : String) : Outcome :=
  ⟨0, text, []⟩

end Outcome

/-- The text of a failure to load a configuration. What is wrong inside a file
is not told. -/
def ConfigError.text : ConfigError → String
  | read p cause => failureText (read p cause).message (some cause)
  | parse p => failureText (parse p).message none

/-- The configuration of a request: the one in its file or at the usual place,
with what the request asks for in addition. -/
def SelectRequest.configOn (r : SelectRequest) (d : Disk) (usual : Path) :
    Except ConfigError Config := do
  let c ← match r.config with
    | some p => Config.load d p
    | none => Config.loadOrDefault d usual
  .ok {
    query := r.query.getD c.query
    loadContent := c.loadContent || r.content
    filesFirst := c.filesFirst || r.filesFirst
    includeHidden := c.includeHidden || r.hidden }

/-- How a walk with the given events ends. -/
def ending (events : List WalkEvent) : Nat × List Notice :=
  match events.getLast? with
  | some .finished => (0, [.elapsed])
  | some (.failed e) => (1, [.log (.walkFailed e.path), .text (failureText e.message none)])
  | _ => (0, [])

/-- The events that a selection over a walk gives when it is paused after each
match. -/
def Records.eventsOf (records : Records) (w : Walker) : List WalkEvent :=
  ((Selection.start w).events records.store (fun _ => none) records.turns true records.bound).2.1

/-- Print the files that match the query of a configuration. -/
def Records.select (records : Records) (c : Config) (json : Bool) : Outcome :=
  let begun : Notice := .log (.selecting records.root c.query)
  match Walker.ofQuery c.query c.walkOptions with
  | .error e => ⟨1, "", [begun, .text (failureText e.message none)]⟩
  | .ok w =>
    let events := records.eventsOf w
    let (code, notices) := ending events
    ⟨code, report json events, begun :: notices⟩

/-- Print the files that a request asks for. -/
def SelectRequest.run (r : SelectRequest) (d : Disk) (usual : Path) : Outcome :=
  match r.configOn d usual with
  | .error e => .failed e.text
  | .ok c => Records.select ⟨d, r.root⟩ c r.json

/-- Print the record that a request asks for. -/
def GetRequest.run (r : GetRequest) (d : Disk) : Outcome :=
  match Records.get ⟨d, r.root⟩ r.key with
  | .ok value => .printed (value.pretty ++ "\n")
  | .error e =>
    if e.isNotFound then .failed s!"not found: {r.key}\n"
    else .failed (failureText e.message (some e.cause))

/-- Run a request. `usual` is the file of the configuration unless the request
names another. -/
def Request.run (d : Disk) (usual : Path) : Request → Outcome
  | select r => r.run d usual
  | get r => r.run d
  | help topic => .printed topic.text
  | version => .printed versionText

/-- Run a command line. -/
def runCommand (d : Disk) (usual : Path) (words : List String) : Except UsageError Outcome :=
  (Request.ofWords words).map (Request.run d usual)

end TreeQuery
