import TreeQuery.Command.Request

/-!
# What the program says about itself

The texts of help, of the version and of a line that is not understood.
-/

namespace TreeQuery

/-- Lines as one text, each with its end. -/
def unlines (lines : List String) : String :=
  String.join (lines.map (· ++ "\n"))

/-- The text about a topic. -/
def Topic.text : Topic → String
  | program => unlines [
      "Query and load JSON records stored as files",
      "",
      "Usage: fsroot <COMMAND>",
      "",
      "Commands:",
      "  select  Stream every file matching a glob query",
      "  get     Print the record stored at KEY",
      "  help    Print this message or the help of the given subcommand(s)",
      "",
      "Options:",
      "  -h, --help     Print help",
      "  -V, --version  Print version"]
  | select => unlines [
      "Stream every file matching a glob query",
      "",
      "Usage: fsroot select [OPTIONS] --root <ROOT> [QUERY]",
      "",
      "Arguments:",
      "  [QUERY]  Slash-separated glob, e.g. `users/**/*.json` (defaults to config)",
      "",
      "Options:",
      "      --root <ROOT>      Directory holding the records",
      "      --content          Load and parse each matched .json file",
      "      --files-first      Visit files before subdirectories",
      "      --hidden           Include dotfiles and dot-directories",
      "      --config <CONFIG>  Config file to use instead of the default location",
      "      --json             Print one JSON object per match",
      "  -h, --help             Print help"]
  | get => unlines [
      "Print the record stored at KEY",
      "",
      "Usage: fsroot get --root <ROOT> <KEY>",
      "",
      "Arguments:",
      "  <KEY>  Path of the record relative to the root",
      "",
      "Options:",
      "      --root <ROOT>  Directory holding the records",
      "  -h, --help         Print help"]
  | help => unlines [
      "Print this message or the help of the given subcommand(s)",
      "",
      "Usage: fsroot help [COMMAND]...",
      "",
      "Arguments:",
      "  [COMMAND]...  Print help for the subcommand(s)"]

/-- The name of the program and its version. -/
def versionText : String :=
  "fsroot 0.1.0\n"

/-- The text about a line that is not understood. -/
def UsageError.text (e : UsageError) : String :=
  s!"error: {e.message}\n\nFor more information, try '--help'.\n"

end TreeQuery
