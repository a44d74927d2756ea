import TreeQuery.Glob.Pattern
import TreeQuery.Store.Access
import TreeQuery.Walk.Options
import TreeQuery.Walk.Event
import TreeQuery.Json.Reader

/-!
# Directories being walked

A walk is a stack of *frames*, one for each directory it is inside of. A frame
knows its directory, the segment that the names in it are matched against, the
segments that are left for deeper levels, and whether it is *recursive*: inside
a `**`, where a directory may be entered without using up the segment.

Before its first entry is taken a frame has to be loaded: the directory is
listed, ignored and hopeless names are dropped before anything is asked about
them, and the remaining entries are statted, all in one batch, in the order of
the listing. After that a cursor goes over the entries.
-/

namespace TreeQuery

/-- An entry of a directory. -/
structure Entry where
  name : String
  metadata : Metadata
  deriving DecidableEq, Repr, Inhabited

/-- The entries kept from a directory: those taken, the last one first, and
those still ahead. -/
structure Cursor where
  taken : List Entry
  ahead : List Entry
  deriving DecidableEq, Repr, Inhabited

/-- One directory being walked. -/
structure Frame where
  /-- The path of the directory as seen from the root of the walk. -/
  directory : Path
  /-- The segment for the names of this directory. -/
  segment : Segment
  /-- The segments after it. -/
  later : List Segment
  /-- May directories be entered without using up the segment? -/
  recursive : Bool
  /-- The entries, once the frame is loaded. -/
  cursor : Option Cursor
  deriving DecidableEq, Repr, Inhabited

/-- What is to be done about an entry. -/
inductive Action
  | skip
  /-- Walk the directory of this frame. -/
  | descend (frame : Frame)
  /-- Report the file. -/
  | emit
  deriving DecidableEq, Repr, Inhabited

namespace Frame

/-- A frame that is about to be loaded. A `**` is passed at once and makes the
frame recursive; no pattern ends in one. -/
def enter (directory : Path) (recursive : Bool) : Segment → List Segment → Frame
  | .globstar, s :: rest => ⟨directory, s, rest, true, none⟩
  | s, rest => ⟨directory, s, rest, recursive, none⟩

/-- The frame of a directory deeper down that is walked for the same segment. -/
def deeper (f : Frame) (directory : Path) : Frame :=
  { f with directory := directory, cursor := none }

/-- Is this the last segment? -/
def isLast (f : Frame) : Bool :=
  f.later.isEmpty

/-- The path of an entry. -/
def pathOf (f : Frame) (e : Entry) : Path :=
  f.directory.entry e.name

/-- Is an entry of this name looked at? -/
def keeps (f : Frame) (o : WalkOptions) (name : String) : Bool :=
  !o.ignore name && (f.recursive || f.segment.accepts name)

/-- **Where a walk goes.** A directory is entered for the next segment if there
is one and, inside a `**`, if its name is accepted: the walk leaves the `**` at
the first directory that allows it. Otherwise a recursive frame takes the
directory along for the same segment. A file is reported under the last
segment, if its name is accepted. -/
def action (f : Frame) (e : Entry) : Action :=
  if e.metadata.isDir then
    match f.recursive, f.later with
    | false, [] => .skip
    | false, s :: rest => .descend (enter (f.pathOf e) false s rest)
    | true, [] => .descend (f.deeper (f.pathOf e))
    | true, s :: rest =>
      if f.segment.accepts e.name then .descend (enter (f.pathOf e) false s rest)
      else .descend (f.deeper (f.pathOf e))
  else if f.isLast && f.segment.accepts e.name then .emit
  else .skip

end Frame

/-- Files before directories, and each of both by name. -/
def Entry.precedes (a b : Entry) : Bool :=
  if a.metadata.isDir = b.metadata.isDir then a.name ≤ b.name else b.metadata.isDir

/-- The order in which the entries of a directory are taken. -/
def WalkOptions.arrange (o : WalkOptions) (entries : List Entry) : List Entry :=
  if o.filesFirst then entries.mergeSort Entry.precedes else entries

/-- What a batch of calls fails with, and how late. -/
structure Setback where
  error : WalkError
  late : Nat
  deriving DecidableEq, Repr, Inhabited

/-- What comes of a batch one of whose calls has a setback, and of whose later calls
the result is known: the setback that comes first, and of two that come together
the one that is first in order. -/
def Setback.against {α : Type} (here : Setback) : Except Setback α → Setback
  | .error later => if later.late < here.late then later else here
  | .ok _ => here

/-- **Stat names of a directory together.** The calls are made in the order of the
names. A refusal that comes at once is the end of the batch, and the names after it
are not asked about. One that comes late is seen when all calls have been made. -/
def statEach (directory : Path) : List String → Access (Except Setback (List Entry))
  | [] => pure (.ok [])
  | name :: rest => do
    match ← Access.stat (directory.entry name) with
    | .ok metadata =>
      let others ← statEach directory rest
      pure (others.map (⟨name, metadata⟩ :: ·))
    | .error refusal =>
      let here : Setback := ⟨.stat (directory.entry name) refusal.cause, refusal.late⟩
      if refusal.late = 0 then pure (.error here)
      else
        let others ← statEach directory rest
        pure (.error (here.against others))

/-- Stat names of a directory together, and leave out when a failure came. -/
def statAll (directory : Path) (names : List String) : Access (Except WalkError (List Entry)) := do
  let result ← statEach directory names
  pure (result.mapError Setback.error)

/-- List a frame's directory and stat the names that are looked at. -/
def Frame.load (f : Frame) (o : WalkOptions) : Access (Except WalkError (List Entry)) := do
  match ← Access.list f.directory with
  | .error refusal => pure (.error (.list f.directory refusal.cause))
  | .ok names =>
    match ← statAll f.directory (names.filter (f.keeps o)) with
    | .error e => pure (.error e)
    | .ok entries => pure (.ok (o.arrange entries))

/-- The match for a file, with its contents if these are asked for. In content
mode a file of another kind gives no match. -/
def matchOf (o : WalkOptions) (path : Path) (e : Entry) :
    Access (Except WalkError (Option Match)) :=
  match o.mode with
  | .stats => pure (.ok (some ⟨path, e.metadata, none⟩))
  | .content =>
    if isJsonName e.name then do
      match ← Access.read path with
      | .error refusal => pure (.error (.read path refusal.cause))
      | .ok bytes =>
        match Json.parse bytes with
        | .error cause => pure (.error (.parse path cause))
        | .ok value => pure (.ok (some ⟨path, e.metadata, some value⟩))
    else pure (.ok none)

end TreeQuery
