import TreeQuery.Json.Error
import TreeQuery.Json.Value

/-!
# Reading numbers

The digits of a number are gathered into a significand of 64 bits. As soon as
one more digit would not fit, the digits of the whole part that are left only
raise the decimal exponent, and those of the fraction are dropped. A number
without a point and an exponent is an integer if its significand holds all of
it, and if a minus sign leaves it in range; minus zero is a double.

A double is the significand, rounded, times or divided by a power of ten that
is rounded too: one rounded operation. Below the smallest power it is divided
by 10^308 first, again and again, until the exponent fits or nothing is left.
-/

namespace TreeQuery.Json

/-- The value of a digit. -/
def digit? (b : UInt8) : Option Nat :=
  if 48 ≤ b ∧ b ≤ 57 then some (b.toNat - 48) else none

/-- The digits that a text begins with, and what follows them. -/
def digitRun : Bytes → List Nat × Bytes
  | [] => ([], [])
  | b :: rest =>
    match digit? b with
    | some d =>
      let (ds, r) := digitRun rest
      (d :: ds, r)
    | none => ([], b :: rest)

/-- Append digits to a number while it stays within a limit. The digits from
the first on that would exceed it are given back. -/
def gather (limit : Nat) : Nat → List Nat → Nat × List Nat
  | n, [] => (n, [])
  | n, d :: ds => if n * 10 + d ≤ limit then gather limit (n * 10 + d) ds else (n, d :: ds)

/-- The largest significand. -/
def maxSignificand : Nat := twoTo 64 - 1

/-- The largest written exponent. -/
def maxExponent : Nat := twoTo 31 - 1

/-- The largest power of ten that is a double. -/
def maxPower : Nat := 308

/-- The double nearest to a power of ten, up to the largest. -/
def powerOfTen (k : Nat) : Double :=
  (Double.ofNat? (tenTo k)).getD .zero

/-- The quotient of a double and `10 ^ k`. -/
def scaleDown (x : Double) (k : Nat) : Double :=
  if k ≤ maxPower then (x.div? (powerOfTen k)).getD .zero
  else if x.isZero then x
  else scaleDown ((x.div? (powerOfTen maxPower)).getD .zero) (k - maxPower)
termination_by k
decreasing_by unfold maxPower at *; omega

/-- The double for a significand and a decimal exponent, if it is finite. -/
def ofParts? (significand : Nat) (exponent : Int) : Option Double := do
  let x ← Double.ofNat? significand
  if exponent < 0 then some (scaleDown x (-exponent).toNat)
  else if exponent.toNat ≤ maxPower then x.mul? (powerOfTen exponent.toNat)
  else if x.isZero then some x
  else none

/-- A double from its parts; `rest` follows the number. -/
def doubleOf (negative : Bool) (significand : Nat) (exponent : Int) (rest : Bytes) :
    Except Failure (Number × Bytes) :=
  match ofParts? significand exponent with
  | some x => .ok (.double negative x, rest)
  | none => .error (.here .numberOutOfRange rest)

/-- An integer from its sign and significand. -/
def integerOf (negative : Bool) (significand : Nat) : Number :=
  if !negative then .integer significand
  else if significand = 0 ∨ twoTo 63 < significand then
    .double true ((Double.ofNat? significand).getD .zero)
  else .integer (-(significand : Int))

/-- Read an exponent; the letter before it has been read. -/
def readExponent (negative : Bool) (significand : Nat) (exponent : Int) (s : Bytes) :
    Except Failure (Number × Bytes) :=
  let (down, s) := match s with
    | 43 :: r => (false, r)
    | 45 :: r => (true, r)
    | r => (false, r)
  match digitRun s with
  | ([], []) => .error (.here .endInValue [])
  | ([], _ :: r) => .error (.here .badNumber r)
  | (ds, rest) =>
    match gather maxExponent 0 ds with
    | (e, []) =>
      doubleOf negative significand (if down then exponent - e else exponent + e) rest
    | (_, _ :: left) =>
      if significand ≠ 0 ∧ !down then
        .error ⟨.numberOutOfRange, left.length + rest.length, 0⟩
      else .ok (.double negative .zero, rest)

/-- Is this the letter of an exponent? -/
def isExponentMark (b : UInt8) : Bool :=
  b == 101 || b == 69

/-- Read a fraction; the point has been read. -/
def readFraction (negative : Bool) (significand : Nat) (exponent : Int) (s : Bytes) :
    Except Failure (Number × Bytes) :=
  match digitRun s with
  | ([], []) => .error (.atNext .endInValue [])
  | ([], r) => .error (.atNext .badNumber r)
  | (ds, rest) =>
    let (significand, left) := gather maxSignificand significand ds
    let exponent := exponent - (ds.length - left.length : Nat)
    match rest with
    | b :: r =>
      if isExponentMark b then readExponent negative significand exponent r
      else doubleOf negative significand exponent rest
    | [] => doubleOf negative significand exponent rest

/-- What follows the digits of the whole part: a fraction, an exponent or
nothing. `dropped` digits of the whole part are not in the significand. -/
def readTail (negative : Bool) (significand dropped : Nat) (s : Bytes) :
    Except Failure (Number × Bytes) :=
  let plain :=
    if dropped = 0 then .ok (integerOf negative significand, s)
    else doubleOf negative significand dropped s
  match s with
  | b :: r =>
    if b = 46 then readFraction negative significand dropped r
    else if isExponentMark b then readExponent negative significand dropped r
    else plain
  | [] => plain

/-- Read a number; its sign has been read. A leading zero stands alone. -/
def readNumber (negative : Bool) (s : Bytes) : Except Failure (Number × Bytes) :=
  match digitRun s with
  | ([], []) => .error (.here .endInValue [])
  | ([], _ :: r) => .error (.here .badNumber r)
  | (0 :: [], rest) => readTail negative 0 0 rest
  | (0 :: _ :: _, _) => .error (.atNext .badNumber (s.drop 1))
  | (ds, rest) =>
    let (significand, left) := gather maxSignificand 0 ds
    readTail negative significand left.length rest

end TreeQuery.Json
