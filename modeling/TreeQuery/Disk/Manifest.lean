import TreeQuery.Disk.Resolve
import TreeQuery.Json.Reader
import TreeQuery.Text.Utf8

/-!
# Disks written down

A disk can be written down as a manifest: one JSON object a line, each for one
node. `path` is where the node stands. A node with a `target` is a link, one
with a `text` is a file – `modified` is the time of its last change in seconds
since 1970 – and any other node is a directory. The directories that lead to a
node need no lines of their own.
-/

namespace TreeQuery

/-- The text at a key of an object. -/
def textIn (members : List (String × Json.Value)) (key : String) : Option String :=
  match members.lookup key with
  | some (.string s) => some s
  | _ => none

/-- The integer at a key of an object. -/
def integerIn (members : List (String × Json.Value)) (key : String) : Option Int :=
  match members.lookup key with
  | some (.number (.integer n)) => some n
  | _ => none

/-- The node that an object describes. -/
def DiskNode.ofMembers (members : List (String × Json.Value)) : DiskNode :=
  match textIn members "target" with
  | some target => .link ⟨target⟩
  | none =>
    match textIn members "text" with
    | some text => .file (Text.utf8 text) ((integerIn members "modified").getD 0)
    | none => .directory []

namespace Disk

/-- Add the node of one line, if the line describes one. -/
def addLine (d : Disk) (line : String) : Option Disk :=
  match Json.parse (Text.utf8 line) with
  | .ok (.object members) => do
    let path ← textIn members "path"
    some (d.put ((Path.mk path).components.map .text) (.ofMembers members))
  | _ => none

/-- The disk of a manifest, or the number of the first line that describes no
node. -/
def ofManifest (lines : List String) : Except Nat Disk :=
  lines.zipIdx.foldlM (fun d l => (d.addLine l.1).elim (.error (l.2 + 1)) .ok) .empty

end Disk

end TreeQuery
