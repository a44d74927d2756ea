import TreeQuery.Power

/-!
# Doubles, computed exactly

The finite, non-negative numbers of the 64-bit binary format, each as
`mantissa · 2 ^ exponent`. Arithmetic is done on exact fractions of natural
numbers and rounded once, to the nearest double and from a midpoint to the one
with the even mantissa. Nothing here depends on the machine's floating point,
so every result can be computed inside a proof.
-/

namespace TreeQuery

/-- A finite, non-negative double. The numbers that `Double.round?` builds have
a mantissa of at most 53 bits, and fewer than 53 bits only at the smallest
exponent. -/
structure Double where
  mantissa : Nat
  exponent : Int
  deriving DecidableEq, Repr, Inhabited

namespace Double

/-- The smallest exponent. -/
def minExponent : Int := -1074

/-- The largest exponent. -/
def maxExponent : Int := 971

/-- The smallest mantissa with all 53 bits in use. -/
def fullMantissa : Nat := twoTo 52

/-- Zero. -/
def zero : Double := ⟨0, minExponent⟩

/-- Is the number zero? -/
def isZero (x : Double) : Bool :=
  x.mantissa == 0

/-- Numerator and denominator of the number. -/
def ratio (x : Double) : Nat × Nat :=
  (x.mantissa * twoTo x.exponent.toNat, twoTo (-x.exponent).toNat)

/-- A fraction counted in units of `2 ^ e`. -/
def inUnits (num den : Nat) (e : Int) : Nat × Nat :=
  (num * twoTo (-e).toNat, den * twoTo e.toNat)

/-- The integer nearest to a fraction; from a midpoint the even one. -/
def nearest (num den : Nat) : Nat :=
  let q := num / den
  let twice := 2 * (num % den)
  if den < twice then q + 1
  else if den = twice ∧ q % 2 = 1 then q + 1
  else q

/-- The exponent at which a positive fraction has a mantissa of 53 bits. -/
def fullExponent (num den : Nat) : Int :=
  let e : Int := (Nat.log2 num : Int) - (Nat.log2 den : Int) - 52
  let (n, d) := inUnits num den e
  if n < d * fullMantissa then e - 1 else e

/-- The double nearest to a fraction, or nothing if that would be infinite. -/
def round? (num den : Nat) : Option Double :=
  if num = 0 then some zero
  else
    let e := max minExponent (fullExponent num den)
    let (n, d) := inUnits num den e
    let m := nearest n d
    let x : Double := if m = 2 * fullMantissa then ⟨fullMantissa, e + 1⟩ else ⟨m, e⟩
    if x.exponent ≤ maxExponent then some x else none

/-- The double nearest to a natural number. -/
def ofNat? (n : Nat) : Option Double :=
  round? n 1

/-- The double nearest to a product. -/
def mul? (x y : Double) : Option Double :=
  round? (x.ratio.1 * y.ratio.1) (x.ratio.2 * y.ratio.2)

/-- The double nearest to a quotient. -/
def div? (x y : Double) : Option Double :=
  round? (x.ratio.1 * y.ratio.2) (x.ratio.2 * y.ratio.1)

end Double

end TreeQuery
