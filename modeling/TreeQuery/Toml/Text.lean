/-!
# Strings of a TOML document

Strings come in four forms: with escapes between double quotes, without
between single quotes, and both of these over several lines between tripled
quotes. A form over several lines drops a line break right behind its opening
and may hold up to two quotes in a row, also in front of its closing; with
escapes, a backslash at the end of a line drops the break and all blanks after
it. Line breaks are read as line feeds. Control characters other than the tab
stand in no string.
-/

namespace TreeQuery.Toml

/-- A reader takes something off the front of a text. -/
abbrev Reader (α : Type) := List Char → Option (α × List Char)

/-- Space and tab. -/
def isBlank (c : Char) : Bool :=
  c == ' ' || c == '\t'

/-- A text without the blanks at its front. -/
def skipBlanks (s : List Char) : List Char :=
  s.dropWhile isBlank

/-- Characters of a comment: all but control characters other than the tab. -/
def isPlain (c : Char) : Bool :=
  c == '\t' || (0x20 ≤ c.toNat && c.toNat != 0x7f)

/-- What follows the line break that a text begins with. -/
def afterBreak? : List Char → Option (List Char)
  | '\n' :: s => some s
  | '\r' :: '\n' :: s => some s
  | _ => none

/-- The value of a hexadecimal digit. -/
def hexValue? (c : Char) : Option Nat :=
  if '0' ≤ c ∧ c ≤ '9' then some (c.toNat - 48)
  else if 'a' ≤ c ∧ c ≤ 'f' then some (c.toNat - 87)
  else if 'A' ≤ c ∧ c ≤ 'F' then some (c.toNat - 55)
  else none

/-- The character whose code point is written in hexadecimal digits. -/
def codePoint? (digits : List Char) : Option Char := do
  let n ← digits.foldlM (fun n c => (hexValue? c).map (16 * n + ·)) 0
  if n.isValidChar then some (Char.ofNat n) else none

/-- The character of a one-letter escape. -/
def escape? : Char → Option Char
  | 'b' => some '\x08'
  | 't' => some '\t'
  | 'n' => some '\n'
  | 'f' => some '\x0c'
  | 'r' => some '\r'
  | '"' => some '"'
  | '\\' => some '\\'
  | _ => none

/-- One more character in front of what is read. -/
def cons (c : Char) (r : Option (List Char × List Char)) : Option (List Char × List Char) :=
  r.map fun (cs, s) => (c :: cs, s)

/-- The rest of a string with escapes, on one line. -/
def readBasic : Reader (List Char)
  | [] => none
  | '"' :: s => some ([], s)
  | '\\' :: 'u' :: a :: b :: c :: d :: s =>
    (codePoint? [a, b, c, d]).bind fun x => cons x (readBasic s)
  | '\\' :: 'U' :: a :: b :: c :: d :: e :: f :: g :: h :: s =>
    (codePoint? [a, b, c, d, e, f, g, h]).bind fun x => cons x (readBasic s)
  | '\\' :: e :: s => (escape? e).bind fun x => cons x (readBasic s)
  | c :: s => if isPlain c && c != '\\' then cons c (readBasic s) else none

/-- The rest of a string without escapes, on one line. -/
def readLiteral : Reader (List Char)
  | [] => none
  | '\'' :: s => some ([], s)
  | c :: s => if isPlain c then cons c (readLiteral s) else none

/-- Is a backslash in front of this text at the end of its line? -/
def endsLine (s : List Char) : Bool :=
  (afterBreak? (skipBlanks s)).isSome

/-- The rest of a string with escapes, over several lines. While `dropping`,
blanks and line breaks are dropped. -/
def readBasicLines : (dropping : Bool) → Reader (List Char)
  | _, [] => none
  | _, '"' :: '"' :: '"' :: '"' :: '"' :: s => some (['"', '"'], s)
  | _, '"' :: '"' :: '"' :: '"' :: s => some (['"'], s)
  | _, '"' :: '"' :: '"' :: s => some ([], s)
  | _, '\\' :: 'u' :: a :: b :: c :: d :: s =>
    (codePoint? [a, b, c, d]).bind fun x => cons x (readBasicLines false s)
  | _, '\\' :: 'U' :: a :: b :: c :: d :: e :: f :: g :: h :: s =>
    (codePoint? [a, b, c, d, e, f, g, h]).bind fun x => cons x (readBasicLines false s)
  | _, '\\' :: e :: s =>
    if endsLine (e :: s) then readBasicLines true (e :: s)
    else (escape? e).bind fun x => cons x (readBasicLines false s)
  | dropping, '\r' :: '\n' :: s =>
    if dropping then readBasicLines true s else cons '\n' (readBasicLines false s)
  | dropping, '\n' :: s =>
    if dropping then readBasicLines true s else cons '\n' (readBasicLines false s)
  | dropping, c :: s =>
    if dropping && isBlank c then readBasicLines true s
    else if isPlain c && c != '\\' then cons c (readBasicLines false s)
    else none

/-- The rest of a string without escapes, over several lines. -/
def readLiteralLines : Reader (List Char)
  | [] => none
  | '\'' :: '\'' :: '\'' :: '\'' :: '\'' :: s => some (['\'', '\''], s)
  | '\'' :: '\'' :: '\'' :: '\'' :: s => some (['\''], s)
  | '\'' :: '\'' :: '\'' :: s => some ([], s)
  | '\r' :: '\n' :: s => cons '\n' (readLiteralLines s)
  | '\n' :: s => cons '\n' (readLiteralLines s)
  | c :: s => if isPlain c then cons c (readLiteralLines s) else none

/-- A text without the line break at its front. -/
def skipBreak (s : List Char) : List Char :=
  (afterBreak? s).getD s

/-- A string on one line, for keys. -/
def readQuoted : Reader String
  | '"' :: s => (readBasic s).map fun (cs, s) => (String.ofList cs, s)
  | '\'' :: s => (readLiteral s).map fun (cs, s) => (String.ofList cs, s)
  | _ => none

/-- A string of any form. -/
def readString : Reader String
  | '"' :: '"' :: '"' :: s =>
    (readBasicLines false (skipBreak s)).map fun (cs, s) => (String.ofList cs, s)
  | '\'' :: '\'' :: '\'' :: s =>
    (readLiteralLines (skipBreak s)).map fun (cs, s) => (String.ofList cs, s)
  | s => readQuoted s

end TreeQuery.Toml
