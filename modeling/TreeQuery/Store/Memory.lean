import TreeQuery.Store.Basic
import TreeQuery.Walk.Bound

/-!
# Trees in memory

A tree that is written down as a list of nodes, each with its path. A node can
be made to fail a call, to report another size than that of its data, or to
list other names than those of its children, so that all that a store may do
can be written down.

The root is always there, and always a directory. The first node of a path
creates an entry – directories above it too, where they are missing – and puts
its name at the end of its directory's names. Whether an entry is a directory
is settled then; later nodes of the same path replace all else but the names,
and these only if they give names of their own.
-/

namespace TreeQuery

/-- The ways in which a node can fail a call. -/
inductive Fault
  | notFound
  | permission
  | io
  deriving DecidableEq, Repr, Inhabited

/-- The failure of a call on a path. -/
def Fault.error (f : Fault) (p : Path) : AccessError :=
  match f with
  | notFound => .notFound p.text
  | permission => .permissionDenied p.text
  | io => .io (p.text ++ ": stale handle")

/-- What a node says about an entry. -/
structure NodeAttributes where
  data : Bytes := []
  /-- Neither a file nor a directory? -/
  special : Bool := false
  /-- The size to report in place of that of the data. -/
  size : Option Nat := none
  modified : Option Int := none
  listFault : Option Fault := none
  statFault : Option Fault := none
  readFault : Option Fault := none
  deriving DecidableEq, Repr, Inhabited

/-- A node, as it is written down. -/
structure MemoryNode where
  path : Path
  isDir : Bool := false
  attributes : NodeAttributes := {}
  /-- Names to list in place of those of the children. -/
  names : Option (List String) := none
  deriving DecidableEq, Repr, Inhabited

/-- An entry of a tree in memory. -/
structure MemoryEntry where
  isDir : Bool
  names : List String
  attributes : NodeAttributes
  deriving DecidableEq, Repr, Inhabited

/-- A tree in memory: its entries by their paths. -/
structure Memory where
  entries : List (Path × MemoryEntry)
  deriving Repr, Inhabited

namespace Memory

/-- The tree with nothing but its root. -/
def empty : Memory :=
  ⟨[(.root, ⟨true, [], {}⟩)]⟩

/-- The entry at a path. -/
def find? (t : Memory) (p : Path) : Option MemoryEntry :=
  t.entries.lookup p

/-- Replace the entry at a path. -/
def update (t : Memory) (p : Path) (f : MemoryEntry → MemoryEntry) : Memory :=
  ⟨t.entries.map fun (q, e) => if q = p then (q, f e) else (q, e)⟩

/-- The paths from the first directory below the root down to a path, each as
the directory, the name in it and the path itself. -/
def lineage (p : Path) : List (Path × String × Path) :=
  let rec go (dir : List Char) (sep : List Char) : List (List Char) → List (Path × String × Path)
    | [] => []
    | name :: rest =>
      let path := dir ++ sep ++ name
      (⟨String.ofList dir⟩, String.ofList name, ⟨String.ofList path⟩) :: go path ['/'] rest
  go [] [] (p.text.toList.splitOn '/')

/-- Create an entry in a directory, unless it is there. -/
def create (t : Memory) (isDir : Bool) : Path × String × Path → Memory
  | (dir, name, path) =>
    if (t.find? path).isSome then t
    else
      let t := t.update dir fun e => { e with names := e.names ++ [name] }
      ⟨t.entries ++ [(path, ⟨isDir, [], {}⟩)]⟩

/-- Add a node. -/
def add (t : Memory) (n : MemoryNode) : Memory :=
  let t := if n.path = .root then t else
    (lineage n.path).foldl (fun t l => t.create (l.2.2 ≠ n.path || n.isDir) l) t
  t.update n.path fun e => ⟨e.isDir, n.names.getD e.names, n.attributes⟩

/-- The tree that a list of nodes describes. -/
def ofNodes (nodes : List MemoryNode) : Memory :=
  nodes.foldl add empty

/-- What is known about an entry. -/
def MemoryEntry.metadata (e : MemoryEntry) : Metadata where
  isDir := e.isDir
  isFile := !e.isDir && !e.attributes.special
  size := e.attributes.size.getD (if e.isDir then 0 else e.attributes.data.length)
  modified := e.attributes.modified

/-- The tree as a store. A fault comes before everything else, and what is refused is refused
at once. -/
def store (t : Memory) : Store
  | .list p =>
    match t.find? p with
    | none => .error (AccessError.notFound p.text).atOnce
    | some e =>
      match e.attributes.listFault with
      | some f => .error (f.error p).atOnce
      | none => if e.isDir then .ok e.names else .error (AccessError.notFound p.text).atOnce
  | .stat p =>
    match t.find? p with
    | none => .error (AccessError.notFound p.text).atOnce
    | some e =>
      match e.attributes.statFault with
      | some f => .error (f.error p).atOnce
      | none => .ok (MemoryEntry.metadata e)
  | .read p =>
    match t.find? p with
    | none => .error (AccessError.notFound p.text).atOnce
    | some e =>
      match e.attributes.readFault with
      | some f => .error (f.error p).atOnce
      | none => if e.isDir then .error (AccessError.notFound p.text).atOnce else .ok e.attributes.data

/-- The longest list of names. -/
def width (t : Memory) : Nat :=
  (t.entries.map fun e => e.2.names.length).foldl max 0

/-- The length of the longest path. -/
def longest (t : Memory) : Nat :=
  (t.entries.map fun e => e.1.text.length).foldl max 0

/-- Is every name that is listed a single name, neither empty nor with a slash? -/
def isPlain (t : Memory) : Bool :=
  t.entries.all fun e => e.2.names.all fun name => name ≠ "" && !name.toList.contains '/'

/-- How deep directories nest in a walk with so many segments. A directory
below `k` single names has a path of at least `k` characters. Other names may
lead back into directories that the walk is inside of; while the segments last,
that costs further levels. -/
def levels (t : Memory) (segments : Nat) : Nat :=
  if t.isPlain then t.longest else t.longest + t.entries.length * segments

/-- A bound on the steps of a walk with so many segments. -/
def bound (t : Memory) (segments : Nat) : Nat :=
  walkBound t.width (t.levels segments)

/-- A bound on the turns of a selection over the tree. -/
def turns (t : Memory) (segments : Nat) : Nat :=
  turnBound t.width (t.bound segments)

end Memory

end TreeQuery
