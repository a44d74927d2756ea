import TreeQuery.Walk.Event
import TreeQuery.Json.Printer

/-!
# Lines of output

Each match becomes one line: its path, and behind a tab its size – or, if it
was loaded, its contents in compact form. On request the line is a JSON object
instead, with the same four keys for every match. Both kinds of JSON text hold
no line break of their own.
-/

namespace TreeQuery

namespace Match

/-- The time of the last change as shown in an object: not known if it is
before 1970. -/
def shownTime (m : Match) : Json.Value :=
  match m.metadata.modified with
  | some t => if 0 ≤ t then .number (.integer t) else .null
  | none => .null

/-- A match as a JSON object. -/
def object (m : Match) : Json.Value :=
  .ofMembers [
    ("path", .string m.path.text),
    ("size", .number (.integer m.metadata.size)),
    ("modified", m.shownTime),
    ("content", m.content.getD .null)]

/-- A match as one line, without the end of the line. -/
def line (m : Match) (json : Bool) : String :=
  if json then m.object.compact
  else match m.content with
    | some value => m.path.text ++ "\t" ++ value.compact
    | none => m.path.text ++ "\t" ++ toString m.metadata.size

end Match

/-- One line for each match among events. -/
def report (json : Bool) (events : List WalkEvent) : String :=
  String.join <| events.map fun
    | .found m => m.line json ++ "\n"
    | _ => ""

/-- A text indented by four blanks, each of its lines. -/
def indented (text : String) : String :=
  String.intercalate "\n" ((text.toList.splitOn '\n').map fun l => "    " ++ String.ofList l)

/-- A failure with its cause. -/
def failureText (message : String) (cause : Option String) : String :=
  match cause with
  | some cause => s!"Error: {message}\n\nCaused by:\n{indented cause}\n"
  | none => s!"Error: {message}\n"

end TreeQuery
