import TreeQuery.Disk.Resolve
import TreeQuery.Toml.Reader
import TreeQuery.Text.Utf8
import TreeQuery.Walk.Options

/-!
# Configuration

A configuration holds what a selection does when the command line does not say
otherwise. It is written as a TOML document with four keys, each of which may
be left out; keys of other names mean nothing, but a value of the wrong type is
an error. A file that is asked for by name has to be there; the file at the
usual place may be missing.
-/

namespace TreeQuery

/-- What a selection does by default. -/
structure Config where
  query : String := "**/*"
  /-- Are matches read and parsed? -/
  loadContent : Bool := false
  /-- Are files visited before subdirectories? -/
  filesFirst : Bool := false
  /-- Are names with a dot at the front walked too? -/
  includeHidden : Bool := false
  deriving DecidableEq, Repr

instance : Inhabited Config := ⟨{}⟩

/-- Why a configuration cannot be loaded. -/
inductive ConfigError
  /-- The file cannot be read, for a reason that does not name it. -/
  | read (path : Path) (cause : String)
  /-- The file is no document of a configuration. -/
  | parse (path : Path)
  deriving DecidableEq, Repr, Inhabited

/-- The text of a failure. -/
def ConfigError.message : ConfigError → String
  | read p _ => s!"reading config {p}"
  | parse p => s!"parsing config {p}"

namespace Config

/-- The text at a key of a document, if the key is there. -/
def textAt (fields : Toml.Fields) (key : String) : Option (Option String) :=
  match fields.get? key with
  | none => some none
  | some (.string s) => some (some s)
  | some _ => none

/-- The truth value at a key of a document; a missing key is false. -/
def flagAt (fields : Toml.Fields) (key : String) : Option Bool :=
  match fields.get? key with
  | none => some false
  | some (.boolean b) => some b
  | some _ => none

/-- The configuration that a document describes. -/
def ofFields? (fields : Toml.Fields) : Option Config := do
  let query ← textAt fields "query"
  let loadContent ← flagAt fields "load_content"
  let filesFirst ← flagAt fields "files_first"
  let includeHidden ← flagAt fields "include_hidden"
  some ⟨query.getD ({} : Config).query, loadContent, filesFirst, includeHidden⟩

/-- The configuration in the bytes of a file. -/
def ofBytes (p : Path) (bytes : Bytes) : Except ConfigError Config :=
  match Text.ofUtf8? bytes with
  | none => .error (.read p "stream did not contain valid UTF-8")
  | some text =>
    match (Toml.parse text).bind ofFields? with
    | none => .error (.parse p)
    | some config => .ok config

/-- Load a configuration from a file that has to be there. -/
def load (d : Disk) (p : Path) : Except ConfigError Config :=
  match d.read p with
  | .error e => .error (.read p e.text)
  | .ok bytes => ofBytes p bytes

/-- Load a configuration from a file that may be missing. -/
def loadOrDefault (d : Disk) (p : Path) : Except ConfigError Config :=
  match d.read p with
  | .error e => if e.kind = .notFound then .ok {} else .error (.read p e.text)
  | .ok bytes => ofBytes p bytes

/-- The usual file of a configuration: below the directory for configurations,
which has to be named by an absolute path, or else below that of the user. -/
def usualPath (configHome home : Option String) : Path :=
  let named := (configHome.map Path.mk).filter Path.isAbsolute
  let base := named.getD ((Path.mk (home.getD "")).entry ".config")
  (base.entry "fsroot").entry "config.toml"

/-- The options of a walk under a configuration. -/
def walkOptions (c : Config) : WalkOptions where
  mode := if c.loadContent then .content else .stats
  filesFirst := c.filesFirst
  ignore := if c.includeHidden then fun _ => false else isDotfile

end Config

end TreeQuery
