/-!
# Options of a walk

A walk either reports what it knows about each match or reads and parses it as
well; it may visit the files of a directory before its subdirectories; and it
passes over the names that an *ignore rule* holds of. The rule sees the bare
name of an entry, never its path. Unless told otherwise, a walk passes over
names that begin with a dot.
-/

namespace TreeQuery

/-- What a match carries. -/
inductive WalkMode
  /-- What is known about the file. -/
  | stats
  /-- Its parsed contents too; files whose names do not end in `.json` are
  passed over. -/
  | content
  deriving DecidableEq, Repr, Inhabited

/-- Does the name begin with a dot? -/
def isDotfile (name : String) : Bool :=
  name.toList.head? == some '.'

/-- Does the name end in `.json`? -/
def isJsonName (name : String) : Bool :=
  ".json".toList.isSuffixOf name.toList

/-- The options of a walk. -/
structure WalkOptions where
  mode : WalkMode := .stats
  /-- Are the entries of a directory taken files first, then by name? -/
  filesFirst : Bool := false
  /-- The names to pass over. -/
  ignore : String → Bool := isDotfile

namespace WalkOptions

/-- The options as shown in messages. Rules have no text of their own. -/
def text (o : WalkOptions) : String :=
  let mode := match o.mode with
    | .stats => "Stats"
    | .content => "Content"
  "WalkOptions \x7b mode: " ++ mode ++ s!", files_first: {o.filesFirst}, ignore: \"...\" \x7d"

instance : ToString WalkOptions := ⟨text⟩

end WalkOptions

/-- An ignore rule given by lists. -/
structure IgnoreRule where
  /-- Are names with a dot at the front ignored? -/
  dotfiles : Bool := false
  /-- Ignored names. -/
  names : List String := []
  /-- Texts at the front of ignored names. -/
  starts : List String := []
  /-- Texts at the end of ignored names. -/
  ends : List String := []
  deriving DecidableEq, Repr, Inhabited

/-- Does the rule hold of a name? -/
def IgnoreRule.holds (r : IgnoreRule) (name : String) : Bool :=
  (r.dotfiles && isDotfile name) || r.names.contains name ||
    r.starts.any (fun t => t.toList.isPrefixOf name.toList) ||
    r.ends.any (fun t => t.toList.isSuffixOf name.toList)

end TreeQuery
