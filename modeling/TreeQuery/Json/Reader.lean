import TreeQuery.Json.NumberReader
import TreeQuery.Json.StringReader

/-!
# Reading documents

A document is one value with blanks around it. Arrays and objects nest at most
127 deep. That depth is also what the reader recurses on: `value (d + 1)`
reads the items of an array with `value d`, and a reader of items is told how
to read one item. The loops over items and members are bounded by the bytes
that are left, since every item takes at least one.
-/

namespace TreeQuery.Json

/-- A reader takes a value off the front of a text. -/
abbrev Reader (α : Type) := Bytes → Except Failure (α × Bytes)

/-- Space, tab, line feed and carriage return. -/
def isBlank (b : UInt8) : Bool :=
  b == 32 || b == 9 || b == 10 || b == 13

/-- A text without the blanks at its front. -/
def skipBlanks (s : Bytes) : Bytes :=
  s.dropWhile isBlank

/-- Read the rest of a literal. -/
def readIdent (v : Value) : List Char → Reader Value
  | [], s => .ok (v, s)
  | _ :: _, [] => .error (.here .endInValue [])
  | c :: cs, b :: rest =>
    if b = c.toUInt8 then readIdent v cs rest else .error (.here .noIdent rest)

/-- Read items up to the closing bracket. `bound` is how many may come. -/
def readItems (item : Reader Value) : (bound : Nat) → (first : Bool) → Reader (List Value)
  | 0, _, s => .error (.atNext .endInList s)
  | bound + 1, first, s =>
    match skipBlanks s with
    | [] => .error (.atNext .endInList [])
    | b :: rest =>
      let go (s : Bytes) : Except Failure (List Value × Bytes) := do
        let (v, s) ← item s
        let (vs, s) ← readItems item bound false s
        .ok (v :: vs, s)
      if b = 93 then .ok ([], rest)
      else if first then go (b :: rest)
      else if b = 44 then
        match skipBlanks rest with
        | [] => .error (.atNext .endInValue [])
        | c :: r => if c = 93 then .error (.atNext .trailingComma (c :: r)) else go (c :: r)
      else .error (.atNext .noCommaInList (b :: rest))

/-- Read a key, its opening quote still to come, the colon and the value. -/
def readMember (item : Reader Value) : Reader (String × Value)
  | 34 :: s => do
    let (key, s) ← readString s
    match skipBlanks s with
    | [] => .error (.atNext .endInObject [])
    | 58 :: s =>
      let (v, s) ← item s
      .ok ((key, v), s)
    | s => .error (.atNext .noColon s)
  | s => .error (.atNext .keyNotString s)

/-- Read members up to the closing brace. `bound` is how many may come. -/
def readMembers (item : Reader Value) :
    (bound : Nat) → (first : Bool) → Reader (List (String × Value))
  | 0, _, s => .error (.atNext .endInObject s)
  | bound + 1, first, s =>
    match skipBlanks s with
    | [] => .error (.atNext .endInObject [])
    | b :: rest =>
      let go (s : Bytes) : Except Failure (List (String × Value) × Bytes) := do
        let (m, s) ← readMember item s
        let (ms, s) ← readMembers item bound false s
        .ok (m :: ms, s)
      if b = 125 then .ok ([], rest)
      else if first then go (b :: rest)
      else if b = 44 then
        match skipBlanks rest with
        | [] => .error (.atNext .endInValue [])
        | c :: r => if c = 125 then .error (.atNext .trailingComma (c :: r)) else go (c :: r)
      else .error (.atNext .noCommaInObject (b :: rest))

/-- Read a value. `item` reads what is inside an array or an object; without it
nothing may be inside. -/
def readValueWith (item : Option (Reader Value)) : Reader Value := fun s =>
  match skipBlanks s with
  | [] => .error (.atNext .endInValue [])
  | b :: rest =>
    if b = 110 then readIdent .null "ull".toList rest
    else if b = 116 then readIdent (.bool true) "rue".toList rest
    else if b = 102 then readIdent (.bool false) "alse".toList rest
    else if b = 45 then do
      let (n, s) ← readNumber true rest
      .ok (.number n, s)
    else if (digit? b).isSome then do
      let (n, s) ← readNumber false (b :: rest)
      .ok (.number n, s)
    else if b = 34 then do
      let (t, s) ← readString rest
      .ok (.string t, s)
    else if b = 91 then
      match item with
      | none => .error (.atNext .tooDeep (b :: rest))
      | some item => do
        let (vs, s) ← readItems item (rest.length + 1) true rest
        .ok (.array vs, s)
    else if b = 123 then
      match item with
      | none => .error (.atNext .tooDeep (b :: rest))
      | some item => do
        let (ms, s) ← readMembers item (rest.length + 1) true rest
        .ok (.ofMembers ms, s)
    else .error (.atNext .noValue (b :: rest))

/-- Read a value in which arrays and objects nest at most `depth` deep. -/
def readValue : (depth : Nat) → Reader Value
  | 0 => readValueWith none
  | depth + 1 => readValueWith (some (readValue depth))

/-- How deep arrays and objects may nest. -/
def maxDepth : Nat := 127

/-- Read a document: one value and nothing after it but blanks. -/
def readDocument (s : Bytes) : Except Failure Value := do
  let (v, rest) ← readValue maxDepth s
  match skipBlanks rest with
  | [] => .ok v
  | rest => .error (.atNext .trailingCharacters rest)

/-- The value of a document, or what is wrong with it and where. -/
def parse (document : Bytes) : Except ParseError Value :=
  (readDocument document).mapError (·.locate document)

end TreeQuery.Json
