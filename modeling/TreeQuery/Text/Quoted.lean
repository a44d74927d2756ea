import TreeQuery.Text.Unprintable
import TreeQuery.Text.Extending

/-!
# Quoted texts

A text shown inside a message stands between double quotes. A double quote and
a backslash are escaped by a backslash; tab, newline, carriage return and NUL
have a letter each; any other character that has no visible shape, or that
would attach to the one before it, is written as its code point in hexadecimal.
Everything else, a single quote too, is written as it is.
-/

namespace TreeQuery.Text

/-- A code point as `\u{…}`, in lower-case hexadecimal. -/
def escapedCodePoint (c : Char) : List Char :=
  "\\u\x7b".toList ++ Nat.toDigits 16 c.toNat ++ ['\x7d']

/-- One character of a quoted text. -/
def quotedChar (c : Char) : List Char :=
  if c = '"' then ['\\', '"']
  else if c = '\\' then ['\\', '\\']
  else if c = '\t' then ['\\', 't']
  else if c = '\n' then ['\\', 'n']
  else if c = '\r' then ['\\', 'r']
  else if c = '\x00' then ['\\', '0']
  else if isExtending c || !isPrintable c then escapedCodePoint c
  else [c]

/-- A text between double quotes, escaped. -/
def quoted (s : String) : String :=
  String.ofList ('"' :: s.toList.flatMap quotedChar ++ ['"'])

end TreeQuery.Text
