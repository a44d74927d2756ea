import Mathlib.Data.List.MinMax
import TreeQuery.Glob.Language
import TreeQuery.Store.Access
import TreeQuery.Walk.Options
import TreeQuery.Walk.Event
import TreeQuery.Json.Reader

/-!
# Walks as plain recursion

The same walk as that of `TreeQuery.Walk.Walker`, said without a stack, a cursor
or a step: to visit a directory is to list it, to stat the names that matter in
the order of the listing, and then to go through the entries one after the
other, visiting directories on the way. The first failure ends everything.

There are two ways of statting. `oneByOne` makes each call when the one before it
has been answered; `together` makes them all, unless one is refused at once, and
then sees which refusal came first. A visit takes the way as an argument.

Visits nest; the number of levels that they may nest is the argument that the
recursion is on. With as many levels as the tree has it is never used up.
-/

namespace TreeQuery

/-- What a visit comes to: the matches, and the failure that ended it. -/
structure Findings where
  files : List Match := []
  failure : Option WalkError := none
  deriving Repr, Inhabited

namespace Findings

/-- One match. -/
def one (m : Match) : Findings :=
  { files := [m] }

/-- A failure. -/
def stopped (e : WalkError) : Findings :=
  { failure := some e }

/-- The findings as events: the matches, and the event that ends the walk. -/
def events (f : Findings) : List WalkEvent :=
  f.files.map .found ++ [f.failure.elim .finished .failed]

end Findings

namespace Traversal

/-- Do something for each item, as long as nothing fails. -/
def inTurn {α : Type} (visit : α → Access Findings) : List α → Access Findings
  | [] => pure {}
  | a :: rest => do
    let first ← visit a
    if first.failure.isSome then pure first
    else
      let others ← inTurn visit rest
      pure ⟨first.files ++ others.files, others.failure⟩

/-- A way to find out about names of a directory. -/
abbrev Statting :=
  Path → List String → ExceptT WalkError Access (List (String × Metadata))

/-- **One by one**: the names in their order, up to the first failure. -/
def oneByOne : Statting := fun dir names =>
  names.mapM fun name => ExceptT.mk do
    let answer ← Access.stat (dir.entry name)
    pure ((answer.map fun m => (name, m)).mapError fun r => .stat (dir.entry name) r.cause)

/-- Is this an answer that ends a batch before its other calls are made? -/
def endsBatch : Except Refusal Metadata → Bool
  | .error r => r.late = 0
  | .ok _ => false

/-- The names of a batch that are asked about, each with the answer. -/
def answers (dir : Path) : List String → Access (List (String × Except Refusal Metadata))
  | [] => pure []
  | name :: rest => do
    let answer ← Access.stat (dir.entry name)
    if endsBatch answer then pure [(name, answer)]
    else
      let others ← answers dir rest
      pure ((name, answer) :: others)

/-- The names that are refused. -/
def refusals (known : List (String × Except Refusal Metadata)) : List (String × Refusal) :=
  known.filterMap fun
    | (name, .error r) => some (name, r)
    | (_, .ok _) => none

/-- The names that something is known about. -/
def granted (known : List (String × Except Refusal Metadata)) : List (String × Metadata) :=
  known.filterMap fun
    | (_, .error _) => none
    | (name, .ok m) => some (name, m)

/-- What a batch comes to: the refusal that comes first is the failure, if there is any. -/
def outcome (dir : Path) (known : List (String × Except Refusal Metadata)) :
    Except WalkError (List (String × Metadata)) :=
  match (refusals known).argmin fun a => a.2.late with
  | some (name, r) => .error (.stat (dir.entry name) r.cause)
  | none => .ok (granted known)

/-- **All together**: every call is made, unless one is refused at once. -/
def together : Statting := fun dir names => ExceptT.mk do
  let known ← answers dir names
  pure (outcome dir known)

variable (stats : Statting)

/-- The names of a directory that matter, with what is known about them. -/
def survey (o : WalkOptions) (dir : Path) (matters : String → Bool) :
    ExceptT WalkError Access (List (String × Metadata)) := do
  let names ← ExceptT.mk do
    let answer ← Access.list dir
    pure (answer.mapError fun r => .list dir r.cause)
  let known ← stats dir (names.filter fun n => !o.ignore n && matters n)
  pure <| if o.filesFirst then
      known.mergeSort fun a b => a.2.isDir < b.2.isDir ∨ (a.2.isDir = b.2.isDir ∧ a.1 ≤ b.1)
    else known

/-- The match for a file. -/
def lookAt (o : WalkOptions) (path : Path) (name : String) (m : Metadata) : Access Findings :=
  if o.mode = .stats then pure (.one ⟨path, m, none⟩)
  else if isJsonName name then do
    match ← Access.read path with
    | .error r => pure (.stopped (.read path r.cause))
    | .ok bytes =>
      match Json.parse bytes with
      | .error e => pure (.stopped (.parse path e))
      | .ok value => pure (.one ⟨path, m, some value⟩)
  else pure {}

/-- **Visit a directory.** A directory in it is visited for the segments behind
the one that is due, if there are any and its name may use that one up: at once
outside of a `**`, and inside of one if the name is accepted. Inside of a `**`
every other directory is visited for the same segments. A file is looked at
under the last segment, if its name is accepted. -/
def visit (o : WalkOptions) : (levels : Nat) → Path → Stance → Access Findings
  | 0, _, _ => pure {}
  | levels + 1, dir, stance =>
    match past stance with
    | ([], _) => pure {}
    | (segment :: later, recursive) => do
      match ← (survey stats o dir fun n => recursive || segment.accepts n).run with
      | .error e => pure (.stopped e)
      | .ok entries =>
        inTurn (fun (name, m) =>
          let path := dir.entry name
          if m.isDir then
            if later ≠ [] ∧ (!recursive || segment.accepts name) then
              visit o levels path (later, false)
            else if recursive then visit o levels path (segment :: later, true)
            else pure {}
          else if later = [] ∧ segment.accepts name then lookAt o path name m
          else pure {}) entries

end Traversal

/-- The events of a walk through a tree of at most so many levels. -/
def Pattern.traverse (p : Pattern) (stats : Traversal.Statting) (o : WalkOptions)
    (levels : Nat) : Access (List WalkEvent) := do
  let findings ← Traversal.visit stats o levels .root (p.segments, false)
  pure findings.events

end TreeQuery
