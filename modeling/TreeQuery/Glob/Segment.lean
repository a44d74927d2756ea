import TreeQuery.Glob.Expression
import TreeQuery.Text.Quoted

/-!
# Segments: one token of a query

A query names one directory level per token. A token is compiled into a
`Segment`, which accepts names of that level: `**` and `*` accept every name,
a token without a star accepts the one name it spells, and any other token is
a text with stars, for which an engine matches an expression
(`TreeQuery.Expression`). `**` differs from `*` in what a walk makes of it, not in
the names that it accepts.

There is no other syntax: a question mark, a bracket or a brace is a character
like any other.

The engine is a parameter of `compileWith` and `acceptsWith`. Everything else is
built on `compile` and `accepts`, which are these two with the standard engine.
-/

namespace TreeQuery

/-- Why a query is refused. -/
inductive PatternError
  /-- The query has no token. -/
  | empty
  /-- The engine does not take the expression of the token: its program would be
  above the size limit. -/
  | oversize (token : String)
  deriving DecidableEq, Repr

/-- One token of a query, compiled. -/
inductive Segment
  /-- `**`: any number of directory levels, also none. -/
  | globstar
  /-- `*`: any one name. -/
  | any
  /-- A token without a star: that name and no other. -/
  | literal (text : String)
  /-- Any other token: its stars stand for arbitrary runs of characters. -/
  | wildcard (text : String)
  deriving DecidableEq, Repr, Inhabited

namespace Segment

/-- Compile one token, with an engine. Only a token with stars has an expression, and
so only such a token can be refused. -/
def compileWith (engine : Engine) (token : String) : Except PatternError Segment :=
  if token = "**" then .ok .globstar
  else if token = "*" then .ok .any
  else if '*' ∉ token.toList then .ok (.literal token)
  else if engine.takes (Expression.ofText token.toList) then .ok (.wildcard token)
  else .error (.oversize token)

/-- Compile one token. -/
def compile (token : String) : Except PatternError Segment :=
  compileWith .standard token

/-- The token that the segment was compiled from. -/
def text : Segment → String
  | globstar => "**"
  | any => "*"
  | literal t => t
  | wildcard t => t

/-- Is this `**`? -/
def isGlobstar : Segment → Bool
  | globstar => true
  | _ => false

/-- Does the segment accept a name, with an engine? -/
def acceptsWith (engine : Engine) : Segment → String → Bool
  | globstar, _ => true
  | any, _ => true
  | literal t, name => t = name
  | wildcard t, name => engine.finds (Expression.ofText t.toList) name.toList

/-- Does the segment accept a name? -/
def accepts (s : Segment) (name : String) : Bool :=
  s.acceptsWith .standard name

@[simp] theorem accepts_globstar (name : String) : globstar.accepts name = true := rfl

@[simp] theorem accepts_any (name : String) : any.accepts name = true := rfl

@[simp] theorem accepts_literal (t name : String) : (literal t).accepts name = decide (t = name) :=
  rfl

/-- The four kinds of segment, for display. -/
def kind : Segment → String
  | globstar => "globstar"
  | any => "any"
  | literal _ => "literal"
  | wildcard _ => "wildcard"

/-- A segment shows as its token. -/
instance : ToString Segment := ⟨text⟩

@[simp] theorem isGlobstar_iff {s : Segment} : s.isGlobstar = true ↔ s = globstar := by
  cases s <;> simp [isGlobstar]

/-- Compiling loses nothing: a segment still shows the token it came from. -/
theorem text_of_compile {token : String} {s : Segment} (h : compile token = .ok s) :
    s.text = token := by
  unfold compile compileWith at h
  split at h
  · cases h; simp_all [text]
  · split at h
    · cases h; simp_all [text]
    · split at h
      · cases h; rfl
      · split at h
        · cases h; rfl
        · cases h

end Segment

/-- The text of a refusal. -/
def PatternError.message : PatternError → String
  | .empty => "empty pattern"
  | .oversize token =>
    "invalid pattern segment " ++ Text.quoted token ++
      s!": Compiled regex exceeds size limit of {Engine.sizeLimit} bytes."

end TreeQuery
