import TreeQuery.Glob.Segment

/-!
# Queries

A query is a list of tokens separated by slashes; empty tokens do not count,
so leading, trailing and repeated slashes mean nothing. `Pattern.parse`
compiles the tokens and brings the result into one form:

* a run of `**` becomes a single `**`, and
* a final `**` is followed by an implicit `*`, so that `**` alone asks for
  every file of the tree.

A pattern has at least one segment, by its type.
-/

namespace TreeQuery

/-- A compiled query: one segment per directory level, at least one. -/
structure Pattern where
  /-- The segment that the walk starts with. -/
  first : Segment
  /-- The segments after it. -/
  rest : List Segment
  deriving DecidableEq, Repr, Inhabited

namespace Pattern

/-- All segments, in order. -/
def segments (p : Pattern) : List Segment :=
  p.first :: p.rest

/-- How many segments there are. -/
def length (p : Pattern) : Nat :=
  p.segments.length

/-- Is there a `**` anywhere? -/
def hasGlobstar (p : Pattern) : Bool :=
  p.segments.any Segment.isGlobstar

/-- The non-empty tokens of a query. -/
def tokens (query : String) : List String :=
  ((query.toList.splitOn '/').filter fun t => !t.isEmpty).map String.ofList

/-- One `**` in place of each run of them. -/
def collapse : List Segment → List Segment
  | [] => []
  | s :: rest =>
    match s, collapse rest with
    | .globstar, .globstar :: r => .globstar :: r
    | s, r => s :: r

/-- A final `**` stands for one name or more. -/
def close : List Segment → List Segment
  | [] => []
  | [.globstar] => [.globstar, .any]
  | s :: rest => s :: close rest

/-- Compile a query. The first token that does not compile decides the
error; a query without tokens is empty. -/
def parse (query : String) : Except PatternError Pattern := do
  match close (collapse (← (tokens query).mapM Segment.compile)) with
  | [] => .error .empty
  | s :: rest => .ok ⟨s, rest⟩

/-- The pattern written as a query. -/
def text (p : Pattern) : String :=
  String.intercalate "/" (p.segments.map Segment.text)

instance : ToString Pattern := ⟨text⟩

@[simp] theorem segments_ne_nil (p : Pattern) : p.segments ≠ [] := by
  simp [segments]

@[simp] theorem segments_mk (s : Segment) (rest : List Segment) :
    (Pattern.mk s rest).segments = s :: rest := rfl

end Pattern

end TreeQuery
