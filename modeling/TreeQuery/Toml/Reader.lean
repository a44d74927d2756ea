import TreeQuery.Toml.Scalar

/-!
# Reading TOML documents

A document is a sequence of lines: blank ones, comments, headers of tables and
settings of keys. Each line changes the tree of the document and, if it is a
header, the table that the next settings go to. Values nest at most 79 deep, and
that depth is what their reader recurses on.
-/

namespace TreeQuery.Toml

/-- How deep arrays and inline tables may nest. -/
def maxDepth : Nat := 79

/-- The most parts of a dotted key. -/
def maxParts : Nat := 79

/-- Characters of a key without quotes. -/
def isBare (c : Char) : Bool :=
  c.isAlphanum || c == '-' || c == '_'

/-- One part of a key. -/
def readPartKey (s : List Char) : Option (String × List Char) :=
  match s with
  | '"' :: _ | '\'' :: _ => readQuoted s
  | _ =>
    let bare := s.takeWhile isBare
    if bare.isEmpty then none else some (String.ofList bare, s.drop bare.length)

/-- The parts of a key, with blanks around them. The first argument bounds how
many there may be. -/
def readParts : Nat → Reader (List String)
  | 0, _ => none
  | bound + 1, s => do
    let (part, s) ← readPartKey (skipBlanks s)
    match skipBlanks s with
    | '.' :: s =>
      let (parts, s) ← readParts bound s
      some (part :: parts, s)
    | s => some ([part], s)

/-- A key: the tables it leads through, and its last part. -/
def readKey (s : List Char) : Option ((List String × String) × List Char) := do
  let (parts, s) ← readParts maxParts s
  match parts.getLast? with
  | some last => some ((parts.dropLast, last), s)
  | none => none

/-- A text behind a comment, if it begins with one. -/
def skipComment : List Char → List Char
  | '#' :: s => s.dropWhile isPlain
  | s => s

/-- A text behind blanks, comments and line breaks, which may stand between the
items of an array. The first argument bounds the number of lines. -/
def skipLines : Nat → List Char → List Char
  | 0, s => s
  | bound + 1, s =>
    match afterBreak? (skipComment (skipBlanks s)) with
    | some r => skipLines bound r
    | none => skipBlanks s

/-- The items of an array up to its closing bracket, with a comma after the
last one if need be. The first argument bounds how many items there may be, and
how many lines in front of each. -/
def readItems (item : Reader Node) : Nat → Reader (List Node)
  | 0, _ => none
  | bound + 1, s =>
    match skipLines bound s with
    | ']' :: s => some ([], s)
    | s => do
      let (v, s) ← item s
      match skipLines bound s with
      | ',' :: s =>
        let (vs, s) ← readItems item bound s
        some (v :: vs, s)
      | ']' :: s => some ([v], s)
      | _ => none

/-- A key and its value. -/
def readSetting (item : Reader Node) (s : List Char) :
    Option ((List String × String × Node) × List Char) := do
  let ((path, key), s) ← readKey s
  let s ← expect '=' s
  let (v, s) ← item (skipBlanks s)
  some ((path, key, v), skipBlanks s)

/-- The settings of an inline table up to its closing brace, on one line and
without a comma after the last. The first argument bounds how many there may be. -/
def readSettings (item : Reader Node) : Nat → Fields → Reader Fields
  | 0, _, _ => none
  | bound + 1, fields, s => do
    let ((path, key, v), s) ← readSetting item s
    let (_, fields) ← setKey path key v .inline fields
    match s with
    | ',' :: s => readSettings item bound fields s
    | '}' :: s => some (fields, s)
    | _ => none

/-- A value. `item` reads what is inside an array or an inline table; without
it there may be none. -/
def readValueWith (item : Option (Reader Node)) (s : List Char) : Option (Node × List Char) :=
  match s with
  | '"' :: _ | '\'' :: _ => (readString s).map fun (t, s) => (.string t, s)
  | '[' :: r => do
    let (items, s) ← readItems (← item) (r.length + 1) r
    some (.array items, s)
  | '{' :: r => do
    let item ← item
    match skipBlanks r with
    | '}' :: s => some (.table .inline [], s)
    | r =>
      let (fields, s) ← readSettings item (r.length + 1) [] r
      some (.table .inline fields, s)
  | 't' :: _ => readWord "true" (.boolean true) s
  | 'f' :: _ => readWord "false" (.boolean false) s
  | 'i' :: _ | 'n' :: _ => readNamed s
  | c :: _ => if c.isDigit || c == '+' || c == '-' then readNumber s else none
  | [] => none

/-- A value in which arrays and inline tables nest at most `depth` deep. -/
def readValue : (depth : Nat) → Reader Node
  | 0 => readValueWith none
  | depth + 1 => readValueWith (some (readValue depth))

/-- The end of a line, after blanks and a comment: a break, or the end of all. -/
def endLine (s : List Char) : Option (List Char) :=
  match skipComment (skipBlanks s) with
  | [] => some []
  | s => afterBreak? s

/-- A document being read: its table, and the path of the table that settings
go to. -/
structure Draft where
  fields : Fields
  current : List String
  deriving Inhabited

/-- Make a setting in the table of the last header. -/
def Draft.set (d : Draft) (path : List String) (key : String) (v : Node) : Option Draft := do
  let (_, fields) ← within false (setKey path key v) d.current .header d.fields
  some { d with fields := fields }

/-- Open the table of a header. -/
def Draft.enter (d : Draft) (element : Bool) (path : List String) (key : String) :
    Option Draft := do
  let change := if element then openElement key else openTable key
  let (_, fields) ← within false change path .header d.fields
  some ⟨fields, path ++ [key]⟩

/-- Read one line. -/
def readLine (d : Draft) (s : List Char) : Option (Draft × List Char) :=
  match s with
  | '#' :: _ => do
    let s ← endLine s
    some (d, s)
  | '\n' :: _ | '\r' :: _ => do
    let s ← afterBreak? s
    some (d, s)
  | '[' :: '[' :: s => do
    let ((path, key), s) ← readKey s
    let s ← (expect ']' s).bind (expect ']')
    let s ← endLine s
    let d ← d.enter true path key
    some (d, s)
  | '[' :: s => do
    let ((path, key), s) ← readKey s
    let s ← expect ']' s
    let s ← endLine s
    let d ← d.enter false path key
    some (d, s)
  | s => do
    let ((path, key, v), s) ← readSetting (readValue maxDepth) s
    let s ← endLine s
    let d ← d.set path key v
    some (d, s)

/-- Read lines to the end. The first argument bounds how many there may be. -/
def readAll : Nat → Draft → List Char → Option Draft
  | 0, _, _ => none
  | bound + 1, d, s =>
    match skipBlanks s with
    | [] => some d
    | s => do
      let (d, s) ← readLine d s
      readAll bound d s

/-- The top table of a document. A byte order mark in front is skipped. -/
def parse (text : String) : Option Fields :=
  let s := match text.toList with
    | '\ufeff' :: s => s
    | s => s
  (readAll (s.length + 1) ⟨[], []⟩ s).map Draft.fields

end TreeQuery.Toml
