import TreeQuery.Json.Error
import TreeQuery.Text.Utf8

/-!
# Reading strings

A string is read byte by byte by a small machine. Its state says what the
bytes just read have begun: nothing, an escape, the four digits of a code
unit, or a pair of surrogates whose second half is due. The bytes of the text
come out decoded; whether they are UTF-8 is asked once, at the closing quote.
-/

namespace TreeQuery.Json

/-- What the bytes just read have begun. -/
inductive StringState
  /-- Nothing: the next byte stands for itself. -/
  | plain
  /-- A backslash. -/
  | escape
  /-- A code unit; `high` is the first half of its pair, if it is a second one,
  and `seen` holds its digits so far, the last one first. -/
  | unit (high : Option Nat) (seen : Bytes)
  /-- The first half of a pair: a backslash is due. -/
  | high (unit : Nat)
  /-- The first half of a pair and a backslash: the letter is due. -/
  | highEscape (unit : Nat)
  deriving DecidableEq, Repr, Inhabited

/-- The value of a hexadecimal digit. -/
def hexValue? (b : UInt8) : Option Nat :=
  if 48 ≤ b ∧ b ≤ 57 then some (b.toNat - 48)
  else if 97 ≤ b ∧ b ≤ 102 then some (b.toNat - 87)
  else if 65 ≤ b ∧ b ≤ 70 then some (b.toNat - 55)
  else none

/-- The number that hexadecimal digits spell, the last one first. -/
def unitOf? : Bytes → Option Nat
  | [] => some 0
  | b :: earlier => do some (16 * (← unitOf? earlier) + (← hexValue? b))

/-- The byte that a one-letter escape stands for. -/
def escapeOf? (b : UInt8) : Option UInt8 :=
  if b = 34 ∨ b = 92 ∨ b = 47 then some b
  else if b = 98 then some 8
  else if b = 102 then some 12
  else if b = 110 then some 10
  else if b = 114 then some 13
  else if b = 116 then some 9
  else none

/-- What one byte does to the machine. -/
inductive StringStep
  /-- Go on in a state, with these decoded bytes. -/
  | next (state : StringState) (decoded : Bytes)
  /-- The closing quote. -/
  | close
  | fail (cause : Cause)

/-- A code unit is complete. -/
def unitStep (high : Option Nat) (digits : Bytes) : StringStep :=
  match unitOf? digits, high with
  | none, _ => .fail .badEscape
  | some n, none =>
    if 0xDC00 ≤ n ∧ n ≤ 0xDFFF then .fail .loneSurrogate
    else if 0xD800 ≤ n ∧ n ≤ 0xDBFF then .next (.high n) []
    else .next .plain (String.utf8EncodeChar (Char.ofNat n))
  | some n, some h =>
    if 0xDC00 ≤ n ∧ n ≤ 0xDFFF then
      .next .plain (String.utf8EncodeChar
        (Char.ofNat ((h - 0xD800) * 0x400 + (n - 0xDC00) + 0x10000)))
    else .fail .loneSurrogate

/-- One byte of a string. -/
def StringState.step (b : UInt8) : StringState → StringStep
  | plain =>
    if b = 34 then .close
    else if b = 92 then .next escape []
    else if b < 32 then .fail .controlCharacter
    else .next plain [b]
  | escape =>
    if b = 117 then .next (unit none []) []
    else match escapeOf? b with
      | some d => .next plain [d]
      | none => .fail .badEscape
  | unit h seen =>
    if seen.length < 3 then .next (unit h (b :: seen)) [] else unitStep h (b :: seen)
  | high n => if b = 92 then .next (highEscape n) [] else .fail .endOfHexEscape
  | highEscape n => if b = 117 then .next (unit (some n) []) [] else .fail .endOfHexEscape

/-- The decoded bytes of a string, in reverse, and what follows its closing quote. -/
def scanString : StringState → Bytes → Bytes → Except Failure (Bytes × Bytes)
  | _, _, [] => .error (.here .endInString [])
  | state, decoded, b :: rest =>
    match state.step b with
    | .next state more => scanString state (more.reverse ++ decoded) rest
    | .close => .ok (decoded, rest)
    | .fail cause => .error (.here cause rest)

/-- Read a string; the opening quote has been read. Bytes that are no UTF-8 are
reported where the well-formed part ends, counted back from the closing quote. -/
def readString (s : Bytes) : Except Failure (String × Bytes) := do
  let (reversed, rest) ← scanString .plain [] s
  let decoded := reversed.reverse
  match Text.ofUtf8? decoded with
  | some text => .ok (text, rest)
  | none =>
    .error ⟨.badCodePoint, rest.length, decoded.length - Text.validLength decoded⟩

end TreeQuery.Json
