import TreeQuery.Store.Basic

/-!
# What can be wrong with a document

A reader fails at a place of the document. Some causes stand at the last byte
that was read, the others at the byte that comes next; a place is therefore
kept as the number of bytes behind it. Only at the end is it turned into a
line and a column: lines count from one, columns are bytes since the last line
break.
-/

namespace TreeQuery.Json

/-- Why a text is no JSON document. -/
inductive Cause
  | endInValue
  | endInString
  | endInList
  | endInObject
  | noValue
  | noIdent
  | badNumber
  | numberOutOfRange
  | controlCharacter
  | badEscape
  | loneSurrogate
  | endOfHexEscape
  | badCodePoint
  | noCommaInList
  | noCommaInObject
  | trailingComma
  | noColon
  | keyNotString
  | tooDeep
  | trailingCharacters
  deriving DecidableEq, Repr, Inhabited

/-- The text of a cause. -/
def Cause.message : Cause → String
  | endInValue => "EOF while parsing a value"
  | endInString => "EOF while parsing a string"
  | endInList => "EOF while parsing a list"
  | endInObject => "EOF while parsing an object"
  | noValue => "expected value"
  | noIdent => "expected ident"
  | badNumber => "invalid number"
  | numberOutOfRange => "number out of range"
  | controlCharacter =>
    "control character (\\u0000-\\u001F) found while parsing a string"
  | badEscape => "invalid escape"
  | loneSurrogate => "lone leading surrogate in hex escape"
  | endOfHexEscape => "unexpected end of hex escape"
  | badCodePoint => "invalid unicode code point"
  | noCommaInList => "expected `,` or `]`"
  | noCommaInObject => "expected `,` or `\x7d`"
  | trailingComma => "trailing comma"
  | noColon => "expected `:`"
  | keyNotString => "key must be a string"
  | tooDeep => "recursion limit exceeded"
  | trailingCharacters => "trailing characters"

/-- A failure inside a document. -/
structure Failure where
  cause : Cause
  /-- How many bytes stand behind the place of the failure. -/
  behind : Nat
  /-- How many columns before that place the failure is reported. -/
  back : Nat
  deriving DecidableEq, Repr, Inhabited

namespace Failure

/-- A failure at the last byte read, `rest` being unread. -/
def here (cause : Cause) (rest : Bytes) : Failure :=
  ⟨cause, rest.length, 0⟩

/-- A failure at the next byte, or at the end if there is none. -/
def atNext (cause : Cause) (rest : Bytes) : Failure :=
  ⟨cause, rest.length - 1, 0⟩

end Failure

/-- A failure with its place in the document. -/
structure ParseError where
  cause : Cause
  line : Nat
  column : Nat
  deriving DecidableEq, Repr, Inhabited

/-- The text of an error. -/
def ParseError.message (e : ParseError) : String :=
  s!"{e.cause.message} at line {e.line} column {e.column}"

/-- The line and column behind a run of bytes, going on from those before it. -/
def advance : Nat × Nat → Bytes → Nat × Nat
  | at', [] => at'
  | (line, column), b :: rest =>
    if b = 10 then advance (line + 1, 0) rest else advance (line, column + 1) rest

/-- The place of a failure in its document. -/
def Failure.locate (f : Failure) (document : Bytes) : ParseError :=
  let (line, column) := advance (1, 0) (document.take (document.length - f.behind))
  ⟨f.cause, line, column - f.back⟩

end TreeQuery.Json
