import TreeQuery.Toml.Node
import TreeQuery.Toml.Text
import TreeQuery.Decimal.Double

/-!
# Numbers, dates and truth values of a TOML document

Integers have 64 bits; they are written in decimal, with a sign if need be, or
without a sign in hexadecimal, octal or binary. Single underscores may stand
between digits. A decimal number with a fraction or an exponent is a float; it
may not round to plus infinity, which has a name of its own. Dates and times
are checked against the calendar.
-/

namespace TreeQuery.Toml

/-- The value of a digit in a base. -/
def digitIn? (base : Nat) (c : Char) : Option Nat :=
  (hexValue? c).bind fun d => if d < base then some d else none

/-- Digits of a base, the first one as well, with single underscores between
them. -/
def readDigits (base : Nat) : Reader (List Nat)
  | [] => none
  | c :: s => (digitIn? base c).bind fun d => more d s
where
  /-- What follows a digit. -/
  more (d : Nat) : Reader (List Nat)
    | [] => some ([d], [])
    | '_' :: c :: s =>
      (digitIn? base c).bind fun e => (more e s).map fun (ds, s) => (d :: ds, s)
    | c :: s =>
      if c = '_' then none
      else match digitIn? base c with
        | some e => (more e s).map fun (ds, s) => (d :: ds, s)
        | none => some ([d], c :: s)

/-- The number that digits spell. -/
def ofDigits (base : Nat) (digits : List Nat) : Nat :=
  digits.foldl (fun n d => base * n + d) 0

/-- The largest integer. -/
def maxInteger : Int := twoTo 63 - 1

/-- An integer in range. -/
def integer? (n : Int) : Option Node :=
  if -maxInteger - 1 ≤ n ∧ n ≤ maxInteger then some (.integer n) else none

/-- A sign, if there is one; is it a minus? -/
def readSign : List Char → Bool × List Char
  | '-' :: s => (true, s)
  | '+' :: s => (false, s)
  | s => (false, s)

/-- The digits in front of a point. A zero stands alone. -/
def readWhole : Reader (List Nat)
  | '0' :: s => some ([0], s)
  | s => readDigits 10 s

/-- Does a decimal number of that many digits round to infinity? Far away from
the limit the number of digits decides. -/
def isInfinite (digits : List Nat) (exponent : Int) : Bool :=
  let n := ofDigits 10 digits
  let leading := (Nat.toDigits 10 n).length + exponent
  if n = 0 ∨ leading < 300 then false
  else if 320 < leading then true
  else (Double.round? (n * tenTo exponent.toNat) (tenTo (-exponent).toNat)).isNone

/-- A float of these digits, `scale` of which follow the point. -/
def float? (negative : Bool) (digits : List Nat) (scale : Nat) (exponent : Int)
    (text : List Char) : Option Node :=
  if !negative && isInfinite digits (exponent - scale) then none
  else some (.float (String.ofList text))

/-- What was read of `s` when `rest` is left. -/
def readPart (s rest : List Char) : List Char :=
  s.take (s.length - rest.length)

/-- The exponent of a float, its letter included. -/
def readExponent : Reader Int
  | 'e' :: s => go s
  | 'E' :: s => go s
  | _ => none
where
  /-- Sign and digits. -/
  go (s : List Char) : Option (Int × List Char) :=
    let (negative, s) := readSign s
    (readDigits 10 s).map fun (ds, s) =>
      let n := ofDigits 10 ds
      (if negative then -(n : Int) else n, s)

/-- A decimal number: an integer or a float. -/
def readDecimal (s : List Char) : Option (Node × List Char) := do
  let (negative, unsigned) := readSign s
  let (whole, rest) ← readWhole unsigned
  match rest with
  | '.' :: r =>
    let (fraction, rest) ← readDigits 10 r
    let (exponent, rest) ← match rest with
      | 'e' :: _ | 'E' :: _ => readExponent rest
      | _ => some (0, rest)
    let node ← float? negative (whole ++ fraction) fraction.length exponent (readPart s rest)
    some (node, rest)
  | 'e' :: _ | 'E' :: _ =>
    let (exponent, rest) ← readExponent rest
    let node ← float? negative whole 0 exponent (readPart s rest)
    some (node, rest)
  | _ =>
    let n := ofDigits 10 whole
    let node ← integer? (if negative then -(n : Int) else n)
    some (node, rest)

/-- An integer in another base. -/
def readInBase (base : Nat) (s : List Char) : Option (Node × List Char) := do
  let (ds, rest) ← readDigits base s
  let node ← integer? (ofDigits base ds)
  some (node, rest)

/-- Exactly `count` digits, as a number in a range. -/
def readField (count low high : Nat) (s : List Char) : Option (Nat × List Char) :=
  let digits := s.take count
  if digits.length = count ∧ digits.all Char.isDigit then
    let n := ofDigits 10 (digits.map fun c => c.toNat - 48)
    if low ≤ n ∧ n ≤ high then some (n, s.drop count) else none
  else none

/-- One given character. -/
def expect (c : Char) : List Char → Option (List Char)
  | d :: s => if d = c then some s else none
  | [] => none

/-- The days of a month. -/
def daysOf (year month : Nat) : Nat :=
  let leap := year % 4 = 0 ∧ (year % 100 ≠ 0 ∨ year % 400 = 0)
  if month = 2 then if leap then 29 else 28
  else if month = 4 ∨ month = 6 ∨ month = 9 ∨ month = 11 then 30
  else 31

/-- A date; the rest follows it. -/
def skipDate (s : List Char) : Option (List Char) := do
  let (year, s) ← readField 4 0 9999 s
  let s ← expect '-' s
  let (month, s) ← readField 2 1 12 s
  let s ← expect '-' s
  let (day, s) ← readField 2 1 31 s
  if day ≤ daysOf year month then some s else none

/-- A time of day; the rest follows it. -/
def skipTime (s : List Char) : Option (List Char) := do
  let (_, s) ← readField 2 0 23 s
  let s ← expect ':' s
  let (_, s) ← readField 2 0 59 s
  let s ← expect ':' s
  let (_, s) ← readField 2 0 60 s
  match s with
  | '.' :: r => if (r.takeWhile Char.isDigit).isEmpty then none else some (r.dropWhile Char.isDigit)
  | _ => some s

/-- The offset of a time, if there is one; the rest follows it. -/
def skipOffset (s : List Char) : Option (List Char) :=
  match s with
  | 'Z' :: s => some s
  | 'z' :: s => some s
  | '+' :: s => go s
  | '-' :: s => go s
  | s => some s
where
  /-- Hours and minutes. -/
  go (s : List Char) : Option (List Char) := do
    let (_, s) ← readField 2 0 23 s
    let s ← expect ':' s
    let (_, s) ← readField 2 0 59 s
    some s

/-- Do four digits and a hyphen follow? -/
def startsDate (s : List Char) : Bool :=
  (s.take 4).length = 4 && (s.take 4).all Char.isDigit && (s.drop 4).head? == some '-'

/-- Do two digits and a colon follow? -/
def startsTime (s : List Char) : Bool :=
  (s.take 2).length = 2 && (s.take 2).all Char.isDigit && (s.drop 2).head? == some ':'

/-- A date, with or without a time; a space between them needs a digit after it. -/
def readDate (s : List Char) : Option (Node × List Char) := do
  let rest ← skipDate s
  let rest ← match rest with
    | 'T' :: r | 't' :: r => (skipTime r).bind skipOffset
    | ' ' :: c :: r => if c.isDigit then (skipTime (c :: r)).bind skipOffset else some rest
    | _ => some rest
  some (.datetime (String.ofList (readPart s rest)), rest)

/-- A given word. -/
def readWord (word : String) (node : Node) (s : List Char) : Option (Node × List Char) :=
  if word.toList.isPrefixOf s then some (node, s.drop word.length) else none

/-- Infinity or no number, after their sign. -/
def readNamed (s : List Char) : Option (Node × List Char) :=
  let unsigned := (readSign s).2
  match unsigned with
  | 'i' :: _ => (readWord "inf" (.float "inf") unsigned)
  | 'n' :: _ => (readWord "nan" (.float "nan") unsigned)
  | _ => none

/-- A number or a date. -/
def readNumber (s : List Char) : Option (Node × List Char) :=
  match s with
  | '0' :: 'x' :: r => readInBase 16 r
  | '0' :: 'o' :: r => readInBase 8 r
  | '0' :: 'b' :: r => readInBase 2 r
  | _ =>
    if startsDate s then readDate s
    else if startsTime s then
      (skipTime s).map fun rest => (.datetime (String.ofList (readPart s rest)), rest)
    else match (readSign s).2 with
      | 'i' :: _ | 'n' :: _ => readNamed s
      | _ => readDecimal s

end TreeQuery.Toml
