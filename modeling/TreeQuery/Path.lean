/-!
# Paths

A path is kept as the text it was written or joined as: messages show that
text, doubled slashes and dots included. What a path means is read off its
*pieces*, the texts between its slashes: an empty piece and `.` stay where
they are, `..` goes up, any other piece is a name.

`join` is the only way that a walk builds paths. Under a name that is not
empty and has no slash it adds one piece to the path; a name that begins with
a slash takes the place of the whole path.
-/

namespace TreeQuery

/-- A path, as the text it is written as. The empty text is the place that
relative paths start from. -/
structure Path where
  /-- The text of the path. -/
  text : String
  deriving DecidableEq, Repr, Inhabited

namespace Path

instance : ToString Path := ⟨Path.text⟩

/-- The empty path: the root of a walk. -/
def root : Path := ⟨""⟩

/-- Does the path begin with a slash? -/
def isAbsolute (p : Path) : Bool :=
  p.text.toList.head? == some '/'

/-- Is a slash missing between the path and what is joined to it? -/
def needsSlash (p : Path) : Bool :=
  match p.text.toList.getLast? with
  | none => false
  | some c => c != '/'

/-- The path of `child` as seen from `p`. An absolute child stands for itself;
otherwise the texts are joined by one slash, unless `p` is empty or already
ends in one. -/
def join (p child : Path) : Path :=
  if child.isAbsolute then child
  else if p.needsSlash then ⟨p.text ++ "/" ++ child.text⟩
  else ⟨p.text ++ child.text⟩

/-- The texts between the slashes, in order. -/
def pieces (p : Path) : List String :=
  (p.text.toList.splitOn '/').map String.ofList

/-- Pieces that do not move: the empty one and `.`. -/
def isIdle (piece : String) : Bool :=
  piece == "" || piece == "."

/-- The pieces that move: names, and `..`. -/
def components (p : Path) : List String :=
  p.pieces.filter fun piece => !isIdle piece

/-- Does the path go up anywhere? -/
def goesUp (p : Path) : Bool :=
  p.pieces.contains ".."

/-- An absolute path as seen from the top: its text from the first to the last
piece that moves. A relative path is left as it is. -/
def fromTop (p : Path) : Path :=
  if p.isAbsolute then
    ⟨String.intercalate "/" ((p.pieces.dropWhile isIdle).reverse.dropWhile isIdle).reverse⟩
  else p

/-- The path of an entry of the directory `p`. -/
def entry (p : Path) (name : String) : Path :=
  p.join ⟨name⟩

@[simp] theorem root_join (child : Path) : root.join child = child := by
  cases child; simp [root, join, needsSlash]

/-- A slash comes between a path and a relative child exactly where it is missing. -/
theorem join_of_relative {p child : Path} (h : child.isAbsolute = false) :
    p.join child = ⟨p.text ++ (if p.needsSlash then "/" else "") ++ child.text⟩ := by
  unfold join
  by_cases hs : p.needsSlash <;> simp [h, hs]

end Path

end TreeQuery
