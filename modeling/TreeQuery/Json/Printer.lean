import TreeQuery.Json.Value
import TreeQuery.Decimal.Shortest

/-!
# Writing JSON

`Value.compact` writes a value without any blank, `Value.pretty` with one item
a line and two spaces for each level. In strings the double quote, the
backslash and the characters below U+0020 are escaped and nothing else, so no
written text contains a line break of its own. A double is written with its
shortest digits: positionally while the exponent of its first digit is from
−5 to 15, and with an exponent otherwise.
-/

namespace TreeQuery.Json

/-- One hexadecimal digit in lower case. -/
def hexDigit (n : Nat) : Char :=
  Nat.digitChar (n % 16)

/-- One character inside a string. -/
def escapedChar (c : Char) : List Char :=
  if c = '"' then ['\\', '"']
  else if c = '\\' then ['\\', '\\']
  else if c = '\x08' then ['\\', 'b']
  else if c = '\x0c' then ['\\', 'f']
  else if c = '\n' then ['\\', 'n']
  else if c = '\r' then ['\\', 'r']
  else if c = '\t' then ['\\', 't']
  else if c.toNat < 0x20 then
    ['\\', 'u', '0', '0', hexDigit (c.toNat / 16), hexDigit c.toNat]
  else [c]

/-- A string between double quotes. -/
def stringText (s : String) : String :=
  String.ofList ('"' :: s.toList.flatMap escapedChar ++ ['"'])

/-- Digits with a point after the first `whole` of them; zeros fill both
sides up, and at least one digit follows the point. -/
def pointed (digits : List Char) (whole : Nat) : List Char :=
  let digits := digits ++ List.replicate (whole + 1 - digits.length) '0'
  digits.take whole ++ '.' :: digits.drop whole

/-- A decimal as a number of a document: positional for leading exponents from
−5 to 15, else with one digit before the point and a signed exponent. -/
def decimalText (d : Decimal) : List Char :=
  let digits := d.written
  let p := d.leading
  if 0 ≤ p ∧ p ≤ 15 then pointed digits (p.toNat + 1)
  else if -5 ≤ p ∧ p < 0 then
    '0' :: '.' :: List.replicate ((-p).toNat - 1) '0' ++ digits
  else
    let mantissa := match digits with
      | c :: d :: rest => c :: '.' :: d :: rest
      | short => short
    let sign := if p < 0 then '-' else '+'
    mantissa ++ 'e' :: sign :: Nat.toDigits 10 p.natAbs

/-- A number. -/
def Number.text : Number → String
  | .integer n => toString n
  | .double negative x =>
    String.ofList ((if negative then ['-'] else []) ++ decimalText x.shortest)

mutual

/-- A value without blanks. -/
def Value.compact : Value → String
  | .null => "null"
  | .bool true => "true"
  | .bool false => "false"
  | .number n => n.text
  | .string s => stringText s
  | .array items => "[" ++ compactItems items ++ "]"
  | .object members => "\x7b" ++ compactMembers members ++ "\x7d"

/-- The items of an array, with commas between. -/
def compactItems : List Value → String
  | [] => ""
  | [v] => v.compact
  | v :: rest => v.compact ++ "," ++ compactItems rest

/-- The members of an object, with commas between. -/
def compactMembers : List (String × Value) → String
  | [] => ""
  | [(k, v)] => stringText k ++ ":" ++ v.compact
  | (k, v) :: rest => stringText k ++ ":" ++ v.compact ++ "," ++ compactMembers rest

end

/-- The start of a line at a level. -/
def newline (level : Nat) : String :=
  String.ofList ('\n' :: List.replicate (2 * level) ' ')

mutual

/-- A value at a level, with one item a line. -/
def prettyAt (level : Nat) : Value → String
  | .null => "null"
  | .bool true => "true"
  | .bool false => "false"
  | .number n => n.text
  | .string s => stringText s
  | .array [] => "[]"
  | .array (v :: rest) =>
    "[" ++ newline (level + 1) ++ prettyAt (level + 1) v ++ prettyItems (level + 1) rest ++
      newline level ++ "]"
  | .object [] => "\x7b\x7d"
  | .object ((k, v) :: rest) =>
    "\x7b" ++ newline (level + 1) ++ stringText k ++ ": " ++ prettyAt (level + 1) v ++
      prettyMembers (level + 1) rest ++ newline level ++ "\x7d"

/-- The items after the first. -/
def prettyItems (level : Nat) : List Value → String
  | [] => ""
  | v :: rest => "," ++ newline level ++ prettyAt level v ++ prettyItems level rest

/-- The members after the first. -/
def prettyMembers (level : Nat) : List (String × Value) → String
  | [] => ""
  | (k, v) :: rest =>
    "," ++ newline level ++ stringText k ++ ": " ++ prettyAt level v ++
      prettyMembers level rest

end

/-- A value with one item a line. -/
def Value.pretty (v : Value) : String :=
  prettyAt 0 v

end TreeQuery.Json
