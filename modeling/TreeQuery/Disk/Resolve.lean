import TreeQuery.Disk.Basic

/-!
# From paths to places

A path is followed piece by piece. Every piece needs a directory to start
from, and one that may be searched; an idle piece stays there, `..` goes to the directory above, a name goes
to the entry of that name. If that entry is a link, the pieces of its target
come before those that are left – from the top, if the target is absolute. At
most forty links are followed on one way, so every path is resolved in
finitely many steps, whatever the links point to.

A slash at the end of a path is an empty last piece: what stands before it has
to be a directory, but nothing is looked for in it.

What a path leads to can be statted. To list it, it has to be a directory, and
then one that may be read; to read it, it has to be something that may be read, and
then a file.
-/

namespace TreeQuery.Disk

/-- The most links that are followed on one way. -/
def maxLinks : Nat := 40

/-- The most bytes of a name. -/
def maxName : Nat := 255

/-- The most bytes of a path. -/
def maxPath : Nat := 4095

/-- Follow pieces from a place on; `links` may still be followed. -/
def follow (d : Disk) (links : Nat) (here : Place) (pieces : List String) :
    Except SystemError Place :=
  match pieces with
  | [] => .ok here
  | piece :: rest =>
    match here.node with
    | .file .. => .error .notDirectory
    | .link _ => .error .notDirectory
    | .directory entries =>
      match d.barrier? here piece with
      | some fault => .error fault.error
      | none =>
        if Path.isIdle piece then follow d links here rest
        else if piece = ".." then follow d links here.up rest
        else if maxName < piece.utf8ByteSize then .error .nameTooLong
        else match entries.lookup (.text piece) with
          | none => .error .noEntry
          | some (.link target) =>
            match links with
            | 0 => .error .tooManyLinks
            | links + 1 =>
              follow d links (if target.isAbsolute then d.top else here) (target.pieces ++ rest)
          | some n => follow d links (here.down (.text piece) n) rest
termination_by (links, pieces.length)

/-- The place of a path. Relative paths start at the top. -/
def locate (d : Disk) (p : Path) : Except SystemError Place :=
  if p.text.toList.contains '\x00' then .error .nulInPath
  else if p.text = "" then .error .noEntry
  else if maxPath < p.text.utf8ByteSize then .error .nameTooLong
  else d.follow maxLinks d.top p.pieces

/-- The names in the directory at a path. -/
def list (d : Disk) (p : Path) : Except SystemError (List DiskName) := do
  let there ← d.locate p
  match there.node with
  | .directory entries =>
    match d.refusal? .read there.location with
    | some fault => .error fault.error
    | none => .ok (entries.map Prod.fst)
  | _ => .error .notDirectory

/-- What is known about the node at a path. -/
def stat (d : Disk) (p : Path) : Except SystemError Metadata := do
  match (← d.locate p).node with
  | .directory _ => .ok ⟨true, false, 0, none⟩
  | .file data modified => .ok ⟨false, true, data.length, some modified⟩
  | .link _ => .error .noEntry

/-- The bytes of the file at a path. -/
def read (d : Disk) (p : Path) : Except SystemError Bytes := do
  let there ← d.locate p
  match d.refusal? .read there.location with
  | some fault => .error fault.error
  | none =>
    match there.node with
    | .directory _ => .error .isDirectory
    | .file data _ => .ok data
    | .link _ => .error .noEntry

/-- The location that names lead to from a place, for something to be put
there. A link on the way is followed, and one at the end too if `through`. From
the first name on that is missing, the names are taken as they are. -/
def destination (d : Disk) (through : Bool) (links : Nat) (here : Place)
    (names : List DiskName) : Location :=
  match names with
  | [] => here.location
  | name :: rest =>
    if name = .text ".." then destination d through links here.up rest
    else match here.node.child? name with
      | none => here.location ++ name :: rest
      | some (.link target) =>
        match links with
        | 0 => here.location ++ name :: rest
        | links + 1 =>
          if rest.isEmpty && !through then here.location ++ [name]
          else
            destination d through links (if target.isAbsolute then d.top else here)
              (target.components.map .text ++ rest)
      | some n => destination d through links (here.down name n) rest
termination_by (links, names.length)

/-- Put a node where names lead to from the top, with the directories that
lead to it. Files and directories are put through a link, links in its place.
The top itself stays what it is. -/
def put (d : Disk) (names : List DiskName) (n : DiskNode) : Disk :=
  match d.destination (!n.isLink) maxLinks d.top names with
  | [] => d
  | l => { d with entries := (n.put l d.top.node).entries }

/-- How many names in a row can lead to a directory: a path holds no more, as
each of them takes a slash and a byte. -/
def levels : Nat :=
  maxPath / 2 + 1

end TreeQuery.Disk
