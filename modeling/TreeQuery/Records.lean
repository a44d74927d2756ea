import TreeQuery.Disk.Resolve
import TreeQuery.Selection.Session
import TreeQuery.Walk.Bound

/-!
# Roots of records

A *root* is a directory of records on a disk. Its records are addressed by
paths that start at the root; a leading slash changes nothing, and a path that
goes up anywhere is refused before the disk is asked. So no path leads out of
the root by its text – only a link can.

`store` makes the root a store that walks can read from; `get` loads one
record by its key.
-/

namespace TreeQuery

/-- A directory of records on a disk. -/
structure Records where
  disk : Disk
  /-- The path of the directory. -/
  root : Path
  deriving Inhabited

/-- Why a record cannot be loaded. -/
inductive LookupError
  | read (path : Path) (cause : AccessError)
  | parse (path : Path) (cause : Json.ParseError)
  deriving DecidableEq, Repr, Inhabited

namespace LookupError

/-- The path that a failure is about. -/
def path : LookupError → Path
  | read p _ => p
  | parse p _ => p

/-- The text of what caused a failure. -/
def cause : LookupError → String
  | read _ e => e.message
  | parse _ e => e.message

/-- The text of a failure. -/
def message : LookupError → String
  | read p e => s!"reading {p}: {e.message}"
  | parse p e => s!"could not parse json {p}: {e.message}"

/-- Does the failure say that there is no such record? -/
def isNotFound : LookupError → Bool
  | read _ (.notFound _) => true
  | _ => false

end LookupError

namespace Records

/-- The full path of a path below `root`, unless it goes up somewhere. -/
def resolve (root p : Path) : Except AccessError Path :=
  if p.fromTop.goesUp then
    .error (.permissionDenied s!"path escapes root: {p.fromTop}")
  else .ok (root.join p.fromTop)

/-- The text names among the names of a directory, in increasing order. -/
def listing (names : List DiskName) : List String :=
  (names.filterMap DiskName.text?).mergeSort fun a b => a ≤ b

/-- Resolve a path and ask the disk about it. A path that is not resolved is refused at
once, before the disk is asked. -/
def reach {α : Type} (r : Records) (p : Path) (ask : Path → Except SystemError α) :
    Except Refusal α :=
  match resolve r.root p with
  | .error e => .error e.atOnce
  | .ok full => (ask full).mapError (.ofSystem (r.disk.late full) full)

/-- The root as a store. -/
def store (r : Records) : Store
  | .list p => (r.reach p r.disk.list).map listing
  | .stat p => r.reach p r.disk.stat
  | .read p => r.reach p r.disk.read

/-- Load the record at a key. -/
def get (r : Records) (key : String) : Except LookupError Json.Value :=
  let p := (Path.mk key).fromTop
  match r.store (.read p) with
  | .error refusal => .error (.read (r.root.join p) refusal.cause)
  | .ok bytes => (Json.parse bytes).mapError (.parse (r.root.join p))

/-- A bound on the steps of a walk below the root. -/
def bound (r : Records) : Nat :=
  walkBound r.disk.width Disk.levels

/-- A bound on the turns of a selection below the root. -/
def turns (r : Records) : Nat :=
  turnBound r.disk.width r.bound

end Records

end TreeQuery
