/-!
# Words of a command line

A command takes *switches*, which stand alone, *settings*, which have a value,
and *operands*. `Arguments.scan` reads the words from left to right and stops
at the first one that is wrong, or that asks for help. A setting has its value
in its own word, behind an equals sign, or in the next word, which then may not
look like an option. Behind a lone `--` every word is an operand.

No option may be given twice, and a value may not be empty.
-/

namespace TreeQuery

/-- What is wrong with a command line. -/
inductive UsageError
  /-- No command is named. -/
  | noCommand
  /-- There is no command of that name. -/
  | unknownCommand (name : String)
  /-- The word is no option of the command, or one operand too many. -/
  | unexpected (word : String)
  /-- The option was given before. -/
  | repeated (option : String)
  /-- The setting has no value. -/
  | noValue (option : String)
  /-- The value of the setting is empty. -/
  | emptyValue (option : String)
  /-- The switch has a value. -/
  | needlessValue (option : String)
  /-- Something that is required is not there. -/
  | missing (what : String)
  deriving DecidableEq, Repr, Inhabited

/-- The text of what is wrong. -/
def UsageError.message : UsageError → String
  | noCommand => "'fsroot' requires a subcommand but one was not provided"
  | unknownCommand n => s!"unrecognized subcommand '{n}'"
  | unexpected w => s!"unexpected argument '{w}' found"
  | repeated o => s!"the argument '--{o}' cannot be used multiple times"
  | noValue o => s!"a value is required for '--{o}' but none was supplied"
  | emptyValue o => s!"a value is required for '--{o}' but none was supplied"
  | needlessValue o => s!"unexpected value for '--{o}' found; no more were expected"
  | missing w => s!"the following required arguments were not provided: {w}"

/-- One word, by its form. -/
inductive Word
  /-- A lone `--`. -/
  | separator
  /-- A word with two hyphens in front, with the value behind its equals sign. -/
  | long (name : String) (value : Option String)
  /-- A word with one hyphen in front of its first letter. -/
  | short (letter : Char)
  /-- Any other word, a lone hyphen among them. -/
  | plain (text : String)
  deriving DecidableEq, Repr, Inhabited

/-- The form of a word. -/
def Word.of (word : String) : Word :=
  match word.toList with
  | ['-', '-'] => .separator
  | '-' :: '-' :: rest =>
    let name := String.ofList (rest.takeWhile (· ≠ '='))
    match rest.dropWhile (· ≠ '=') with
    | _ :: value => .long name (some (String.ofList value))
    | [] => .long name none
  | '-' :: letter :: _ => .short letter
  | _ => .plain word

/-- What a command takes. -/
structure Grammar where
  switches : List String
  settings : List String
  /-- The most operands. -/
  operands : Nat
  deriving DecidableEq, Repr, Inhabited

/-- The words of a command, sorted. -/
structure Arguments where
  switches : List String := []
  settings : List (String × String) := []
  operands : List String := []
  deriving DecidableEq, Repr, Inhabited

/-- Why reading stops before the end. -/
inductive Stop
  /-- Help is asked for. -/
  | help
  | wrong (error : UsageError)
  deriving DecidableEq, Repr, Inhabited

namespace Arguments

/-- Was a switch given? -/
def has (a : Arguments) (name : String) : Bool :=
  a.switches.contains name

/-- The value of a setting. -/
def value? (a : Arguments) (name : String) : Option String :=
  a.settings.lookup name

/-- One more switch. -/
def addSwitch (a : Arguments) (name : String) : Except Stop Arguments :=
  if a.has name then .error (.wrong (.repeated name))
  else .ok { a with switches := a.switches ++ [name] }

/-- One more setting. -/
def addSetting (a : Arguments) (name value : String) : Except Stop Arguments :=
  if value = "" then .error (.wrong (.emptyValue name))
  else if (a.value? name).isSome then .error (.wrong (.repeated name))
  else .ok { a with settings := a.settings ++ [(name, value)] }

/-- One more operand. -/
def addOperand (g : Grammar) (a : Arguments) (word : String) : Except Stop Arguments :=
  if a.operands.length < g.operands then .ok { a with operands := a.operands ++ [word] }
  else .error (.wrong (.unexpected word))

/-- Read words from left to right. -/
def scan (g : Grammar) (a : Arguments) : List String → Except Stop Arguments
  | [] => .ok a
  | word :: rest =>
    match Word.of word with
    | .separator => rest.foldlM (addOperand g) a
    | .plain text => do scan g (← a.addOperand g text) rest
    | .short letter => .error (if letter = 'h' then .help else .wrong (.unexpected word))
    | .long name none =>
      if name = "help" then .error .help
      else if g.switches.contains name then do scan g (← a.addSwitch name) rest
      else if g.settings.contains name then
        match rest with
        | [] => .error (.wrong (.noValue name))
        | next :: rest =>
          match Word.of next with
          | .plain value => do scan g (← a.addSetting name value) rest
          | _ => .error (.wrong (.noValue name))
      else .error (.wrong (.unexpected word))
    | .long name (some value) =>
      if name = "help" ∨ g.switches.contains name then .error (.wrong (.needlessValue name))
      else if g.settings.contains name then do scan g (← a.addSetting name value) rest
      else .error (.wrong (.unexpected word))

end Arguments

end TreeQuery
