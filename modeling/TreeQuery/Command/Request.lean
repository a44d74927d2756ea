import TreeQuery.Command.Arguments
import TreeQuery.Path

/-!
# Requests

What a command line asks for: to stream the files that match a query, to print
one record, or to be told about the program. `Request.ofWords` reads a command
line as a request.
-/

namespace TreeQuery

/-- A request for the files that match a query. -/
structure SelectRequest where
  /-- The directory of the records. -/
  root : Path
  /-- The query, if it is not that of the configuration. -/
  query : Option String := none
  /-- Load and parse the matches? -/
  content : Bool := false
  /-- Visit files before subdirectories? -/
  filesFirst : Bool := false
  /-- Walk names with a dot at the front too? -/
  hidden : Bool := false
  /-- The file of the configuration, if it is not the usual one. -/
  config : Option Path := none
  /-- Print an object for each match? -/
  json : Bool := false
  deriving DecidableEq, Repr, Inhabited

/-- A request for one record. -/
structure GetRequest where
  /-- The directory of the records. -/
  root : Path
  key : String
  deriving DecidableEq, Repr, Inhabited

/-- What help may be about. -/
inductive Topic
  | program
  | select
  | get
  | help
  deriving DecidableEq, Repr, Inhabited

/-- What a command line asks for. -/
inductive Request
  | select (request : SelectRequest)
  | get (request : GetRequest)
  | help (topic : Topic)
  | version
  deriving DecidableEq, Repr, Inhabited

/-- What `select` takes. -/
def SelectRequest.grammar : Grammar where
  switches := ["content", "files-first", "hidden", "json"]
  settings := ["root", "config"]
  operands := 1

/-- What `get` takes. -/
def GetRequest.grammar : Grammar where
  switches := []
  settings := ["root"]
  operands := 1

namespace Request

/-- Read the words behind the name of a command. -/
def ofScan (topic : Topic) (g : Grammar) (words : List String)
    (finish : Arguments → Except UsageError Request) : Except UsageError Request :=
  match Arguments.scan g {} words with
  | .error .help => .ok (.help topic)
  | .error (.wrong e) => .error e
  | .ok a => finish a

/-- The directory of the records, which is required. -/
def rootOf (a : Arguments) : Except UsageError Path :=
  match a.value? "root" with
  | some root => .ok ⟨root⟩
  | none => .error (.missing "--root <ROOT>")

/-- A request of `select`. -/
def ofSelect (a : Arguments) : Except UsageError Request := do
  let root ← rootOf a
  .ok (.select {
    root := root
    query := a.operands.head?
    content := a.has "content"
    filesFirst := a.has "files-first"
    hidden := a.has "hidden"
    config := (a.value? "config").map Path.mk
    json := a.has "json" })

/-- A request of `get`. -/
def ofGet (a : Arguments) : Except UsageError Request := do
  let root ← rootOf a
  match a.operands with
  | key :: _ => .ok (.get ⟨root, key⟩)
  | [] => .error (.missing "<KEY>")

/-- The topic of a name. -/
def topicOf? (name : String) : Option Topic :=
  [("select", Topic.select), ("get", .get), ("help", .help)].lookup name

/-- What help is asked for by the words behind `help`. -/
def ofHelp : List String → Except UsageError Request
  | [] => .ok (.help .program)
  | name :: words =>
    match topicOf? name, words with
    | none, _ => .error (.unknownCommand name)
    | some topic, [] => .ok (.help topic)
    | some _, word :: _ => .error (.unknownCommand word)

/-- Read a command line. -/
def ofWords : List String → Except UsageError Request
  | [] => .error .noCommand
  | "select" :: words => ofScan .select SelectRequest.grammar words ofSelect
  | "get" :: words => ofScan .get GetRequest.grammar words ofGet
  | "help" :: words => ofHelp words
  | word :: words =>
    match Word.of word with
    | .long "help" none => .ok (.help .program)
    | .long "version" none => .ok .version
    | .long "help" (some _) => .error (.needlessValue "help")
    | .long "version" (some _) => .error (.needlessValue "version")
    | .short 'h' => .ok (.help .program)
    | .short 'V' => .ok .version
    | .separator =>
      match words with
      | [] => .error .noCommand
      | next :: _ => .error (.unexpected next)
    | .plain _ => .error (.unknownCommand word)
    | _ => .error (.unexpected word)

end Request

end TreeQuery
