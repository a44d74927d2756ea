import TreeQuery.Glob.Wildcard

/-!
# Expressions for texts with stars

A text with stars is not matched by itself. It is written as an *expression*: its
pieces with every character that means something in an expression escaped, `.*` in
the place of each star, `(?s)^` in front and `$` at the end. What an expression
stands for is up to an `Engine`, which takes expressions and finds what they stand
for in a text.

`Engine.standard` is one that knows the expressions of texts with stars and no
others. It reads the pieces back from an expression, and refuses it if it would
take too large a program to match it.
-/

namespace TreeQuery

namespace Expression

/-- The characters that mean something in an expression. -/
def metacharacters : List Char :=
  ['\\', '.', '+', '*', '?', '(', ')', '|', '[', ']', '{', '}', '^', '$', '#', '&', '-', '~']

/-- A text as an expression that stands for this text alone. -/
def escape (text : List Char) : List Char :=
  text.flatMap fun c => if c ∈ metacharacters then ['\\', c] else [c]

/-- The expression for any text: any character, any number of times. -/
def anything : List Char :=
  ['.', '*']

/-- The expression of pieces, with anything between them. -/
def ofPieces (pieces : List (List Char)) : List Char :=
  anything.intercalate (pieces.map escape)

/-- An expression for whole texts, in which any character may be a line break. -/
def anchored (e : List Char) : List Char :=
  ['(', '?', 's', ')', '^'] ++ e ++ ['$']

/-- The expression of a text with stars. -/
def ofText (text : List Char) : List Char :=
  anchored (ofPieces (Wildcard.pieces text))

end Expression

/-- What matches texts against expressions. -/
structure Engine where
  /-- Can the expression be compiled? -/
  takes : (expression : List Char) → Bool
  /-- Is there a part of the text that the expression, compiled, stands for? -/
  finds : (expression text : List Char) → Bool

namespace Engine

/-- A character in front of the first of some pieces. -/
def extend (c : Char) : List (List Char) → List (List Char)
  | [] => []
  | p :: pieces => (c :: p) :: pieces

/-- The pieces of an expression, read up to the `$` at its end. -/
def readPieces? : List Char → Option (List (List Char))
  | ['$'] => some [[]]
  | '\\' :: c :: e => (readPieces? e).map (extend c)
  | '.' :: '*' :: e => (readPieces? e).map ([] :: ·)
  | c :: e => if c ∈ Expression.metacharacters then none else (readPieces? e).map (extend c)
  | [] => none

/-- The pieces of an expression for whole texts. -/
def read? : List Char → Option (List (List Char))
  | '(' :: '?' :: 's' :: ')' :: '^' :: e => readPieces? e
  | _ => none

/-- The most bytes that the program of one expression may take. -/
def sizeLimit : Nat := 10485760

/-- The bytes that the program for some pieces takes: four states to begin and to end
with, a group of states for the arbitrary characters of each gap, and one state for
every byte of a piece. -/
def programSize (pieces : List (List Char)) : Nat :=
  4 * 32 + 1004 * (pieces.length - 1) + 32 * (String.ofList pieces.flatten).utf8ByteSize

/-- **An engine for the expressions of texts with stars.** -/
def standard : Engine where
  takes e := (read? e).any fun pieces => programSize pieces ≤ sizeLimit
  finds e text := (read? e).any fun pieces => Wildcard.fits pieces text

end Engine

end TreeQuery
