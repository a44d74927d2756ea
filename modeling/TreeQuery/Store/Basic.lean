import TreeQuery.Path

/-!
# Stores

A *store* is what a walk reads from: a tree of directories and files that
answers three calls. `list` gives the names in a directory, `stat` what is
known about an entry, `read` the bytes of a file. A store here is the function
from calls to answers – it does not change while it is read, and any of the
three may fail at any path.

An answer may take its time. Where calls are made one after the other this is
not seen; where several are made together, as the stats of a directory are, a
refusal that comes late leaves time for the calls after it, and of several the
one that comes first is the one that counts. So a refusal says how late it
comes. When an answer comes that is no refusal makes no difference.
-/

namespace TreeQuery

/-- The contents of a file. -/
abbrev Bytes := List UInt8

/-- Why a store refuses a call. Each cause carries what it is about. -/
inductive AccessError
  | notFound (subject : String)
  | permissionDenied (subject : String)
  | io (subject : String)
  deriving DecidableEq, Repr, Inhabited

/-- The text of a failure. -/
def AccessError.message : AccessError → String
  | notFound s => "not found: " ++ s
  | permissionDenied s => "permission denied: " ++ s
  | io s => "io error: " ++ s

/-- How a call is refused: why, and when. -/
structure Refusal where
  cause : AccessError
  /-- How late the refusal comes. With `0` it comes at once, before another call
  can be made. Refusals that are equally late count in the order of their calls,
  as they do wherever the answers are taken in that order. -/
  late : Nat
  deriving DecidableEq, Repr, Inhabited

/-- A refusal that comes at once. -/
def AccessError.atOnce (e : AccessError) : Refusal :=
  ⟨e, 0⟩

instance : Coe Refusal AccessError := ⟨Refusal.cause⟩

/-- What is known about an entry. Something may be neither a directory nor a
regular file. -/
structure Metadata where
  isDir : Bool
  isFile : Bool
  /-- The size in bytes. -/
  size : Nat
  /-- The time of the last change, in whole seconds since 1970, where known. -/
  modified : Option Int
  deriving DecidableEq, Repr, Inhabited

/-- One call to a store. -/
inductive Call
  /-- The names in a directory. -/
  | list (path : Path)
  /-- What is known about an entry. -/
  | stat (path : Path)
  /-- The bytes of a file. -/
  | read (path : Path)
  deriving DecidableEq, Repr

namespace Call

/-- The path that a call is about. -/
def path : Call → Path
  | list p => p
  | stat p => p
  | read p => p

/-- A call as one line of a log. -/
def text : Call → String
  | list p => "list " ++ p.text
  | stat p => "stat " ++ p.text
  | read p => "read " ++ p.text

/-- What a call gives when it succeeds. -/
abbrev Result : Call → Type
  | list _ => List String
  | stat _ => Metadata
  | read _ => Bytes

/-- What a call is answered by. -/
abbrev Answer (c : Call) : Type :=
  Except Refusal c.Result

end Call

/-- A store answers every call. -/
abbrev Store := (c : Call) → c.Answer

namespace Store

/-- **A store whose calls do not suspend**, as far as it shows: what it refuses
it refuses at once. -/
def RefusesAtOnce (s : Store) : Prop :=
  ∀ c r, s c = .error r → r.late = 0

/-- The same store with its refusals coming as late as `late` says. -/
def delayed (s : Store) (late : Call → Nat) : Store := fun c =>
  (s c).mapError fun r => { r with late := late c }

end Store

end TreeQuery
