import TreeQuery.Store.SystemError

/-!
# Disks

A disk is a tree of directories, files and symbolic links. The names on a disk
are bytes; those that are not UTF-8 cannot be written in a path and are only
ever seen by the directory that holds them.

A `Place` is a node together with the way to it, so that one can go up from it
as well as down; the names on the way are its *location*. Disks are built by
`put`, which writes a node at a location and creates the directories on the
way.

What is on a disk cannot always be used. A directory may refuse to be searched
for a name, and a directory or a file may refuse to be read, be it that this is
not permitted or that the device fails; the one does not entail the other. What is
known about a node can be told without either, as long as one gets there.

A disk also answers when it answers. This makes a difference where several answers are
waited for, and one of them is a failure: the one that comes first is seen first.
-/

namespace TreeQuery

/-- A name on a disk: a text, or bytes that are no text. -/
inductive DiskName
  | text (name : String)
  | raw (bytes : Bytes)
  deriving DecidableEq, Repr, Inhabited

/-- The name as a text, if it is one. -/
def DiskName.text? : DiskName → Option String
  | text name => some name
  | raw _ => none

/-- The names that lead to a node from the top. -/
abbrev Location := List DiskName

/-- What may stand at a location. -/
inductive DiskNode
  | directory (entries : List (DiskName × DiskNode))
  /-- A file, with the time of its last change in seconds since 1970. -/
  | file (data : Bytes) (modified : Int)
  /-- A symbolic link, with its target as it is written. -/
  | link (target : Path)
  deriving Inhabited

/-- The entries of a directory, each under its name. -/
abbrev DiskEntries := List (DiskName × DiskNode)

namespace DiskNode

/-- Write an entry, in the place of the one of that name, or else behind the
others. -/
def write (name : DiskName) (n : DiskNode) : DiskEntries → DiskEntries
  | [] => [(name, n)]
  | (m, old) :: rest => if m = name then (m, n) :: rest else (m, old) :: write name n rest

/-- The entries of a directory. Nothing else has any. -/
def entries : DiskNode → DiskEntries
  | directory es => es
  | file .. => []
  | link _ => []

/-- Is this a symbolic link? -/
def isLink : DiskNode → Bool
  | link _ => true
  | _ => false

/-- The node of a name in a directory. -/
def child? (n : DiskNode) (name : DiskName) : Option DiskNode :=
  n.entries.lookup name

/-- A node put where another one stands: it takes its place, except that the
entries of two directories are joined. -/
def onto : (new old : DiskNode) → DiskNode
  | directory added, directory es => directory (added.foldl (fun es e => write e.1 e.2 es) es)
  | new, _ => new

/-- Put a node at a location below this one, with the directories that lead
to it. -/
def put (n : DiskNode) : Location → DiskNode → DiskNode
  | [], old => n.onto old
  | name :: rest, old =>
    directory (write name (n.put rest ((old.child? name).getD (directory []))) old.entries)

end DiskNode

mutual

/-- The most entries of a directory in or below a node. -/
def DiskNode.width : DiskNode → Nat
  | .directory es => max es.length (widthIn es)
  | .file .. => 0
  | .link _ => 0

/-- The most entries of a directory in or below one of these entries. -/
def widthIn : DiskEntries → Nat
  | [] => 0
  | (_, n) :: rest => max n.width (widthIn rest)

end

/-- A use of a node that may be refused. -/
inductive DiskUse
  /-- To look for a name in a directory. -/
  | search
  /-- To read the names of a directory, or the bytes of a file. -/
  | read
  deriving DecidableEq, Repr

/-- A tree of directories, files and links, given by the entries of its top. -/
structure Disk where
  entries : DiskEntries
  /-- The uses that are refused, each at a location. -/
  refusals : List ((DiskUse × Location) × DiskFault) := []
  /-- The paths about which an answer is late, with how late it is. -/
  waits : List (Path × Nat) := []
  deriving Inhabited

/-- A node and the way to it: the names from the top, the last one first, each
with the directory that it was taken in. -/
structure Place where
  node : DiskNode
  way : DiskEntries

namespace Place

/-- The names on the way. -/
def location (p : Place) : Location :=
  (p.way.map Prod.fst).reverse

/-- The directory above. Above the top there is only the top. -/
def up (p : Place) : Place :=
  match p.way with
  | [] => p
  | (_, dir) :: way => ⟨dir, way⟩

/-- The place of an entry. -/
def down (p : Place) (name : DiskName) (n : DiskNode) : Place :=
  ⟨n, (name, p.node) :: p.way⟩

@[simp] theorem up_down (p : Place) (name : DiskName) (n : DiskNode) :
    (p.down name n).up = p := rfl

@[simp] theorem location_down (p : Place) (name : DiskName) (n : DiskNode) :
    (p.down name n).location = p.location ++ [name] := by
  simp [location, down]

end Place

namespace Disk

/-- The disk with nothing on it. -/
def empty : Disk := { entries := [] }

/-- The top of the disk. -/
def top (d : Disk) : Place :=
  ⟨.directory d.entries, []⟩

/-- Why a use of what is at a location is refused, if it is. -/
def refusal? (d : Disk) (use : DiskUse) (l : Location) : Option DiskFault :=
  d.refusals.lookup (use, l)

/-- What keeps a directory from being searched for a piece. An empty piece is not
looked for. -/
def barrier? (d : Disk) (here : Place) (piece : String) : Option DiskFault :=
  if piece = "" then none else d.refusal? .search here.location

/-- An empty piece is never refused. -/
@[simp] theorem barrier?_empty (d : Disk) (here : Place) : d.barrier? here "" = none :=
  if_pos rfl

/-- How late an answer about a path is. -/
def late (d : Disk) (p : Path) : Nat :=
  (d.waits.lookup p).getD 0

/-- Where nothing is refused, nothing is. -/
theorem refusal?_of_free {d : Disk} (h : d.refusals = []) (use : DiskUse) (l : Location) :
    d.refusal? use l = none := by
  rw [refusal?, h, List.lookup_nil]

theorem barrier?_of_free {d : Disk} (h : d.refusals = []) (piece : String) (here : Place) :
    d.barrier? here piece = none := by
  rw [barrier?, refusal?_of_free h, ite_self]

/-- The most entries of a directory. -/
def width (d : Disk) : Nat :=
  d.top.node.width

end Disk

end TreeQuery
