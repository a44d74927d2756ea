import TreeQuery.Store.Basic
import TreeQuery.Json.Error
import TreeQuery.Json.Value

/-!
# Events of a walk

A walk gives its results one by one: matches first, then exactly one event
that ends it – that everything has been visited, or the failure that stopped
it. A failure names the path that it is about.
-/

namespace TreeQuery

/-- A file that a walk found. -/
structure Match where
  /-- The path of the file as seen from the root of the walk. -/
  path : Path
  metadata : Metadata
  /-- The parsed contents, if they were asked for. -/
  content : Option Json.Value
  deriving Repr, Inhabited

/-- What stopped a walk. -/
inductive WalkError
  | list (path : Path) (cause : AccessError)
  | stat (path : Path) (cause : AccessError)
  | read (path : Path) (cause : AccessError)
  | parse (path : Path) (cause : Json.ParseError)
  deriving DecidableEq, Repr, Inhabited

namespace WalkError

/-- The path that a failure is about. -/
def path : WalkError → Path
  | list p _ => p
  | stat p _ => p
  | read p _ => p
  | parse p _ => p

/-- The text of a failure. -/
def message : WalkError → String
  | list p e => s!"listing {p}: {e.message}"
  | stat p e => s!"stat {p}: {e.message}"
  | read p e => s!"reading {p}: {e.message}"
  | parse p e => s!"could not parse json {p}: {e.message}"

end WalkError

/-- One result of a walk. -/
inductive WalkEvent
  /-- A match. -/
  | found (file : Match)
  /-- Everything has been visited. -/
  | finished
  /-- The walk cannot go on. -/
  | failed (error : WalkError)
  deriving Repr, Inhabited

/-- What asking once, without waiting, comes to. -/
inductive Polled
  /-- The answer: the next event, or that there is none. -/
  | ready (event : Option WalkEvent)
  /-- There is no answer yet. -/
  | pending
  deriving Repr, Inhabited

/-- Does the event end the walk? -/
def WalkEvent.isTerminal : WalkEvent → Bool
  | found _ => false
  | finished => true
  | failed _ => true

/-- The match of an event, if it is one. -/
def WalkEvent.file? : WalkEvent → Option Match
  | .found m => some m
  | .finished => none
  | .failed _ => none

end TreeQuery
