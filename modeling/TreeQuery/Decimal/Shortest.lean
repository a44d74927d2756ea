import TreeQuery.Decimal.Double

/-!
# The shortest decimal that reads back

Every double stands for an interval of real numbers: those that are nearer to
it than to its neighbours. Its ends lie half-way to the neighbours, and they
belong to it when its mantissa is even. The shortest decimal of a double is
the one with the fewest digits in that interval, and of these the nearest to
the double; between two that are equally near, the one with an even last digit.

For a given number of digits the decimals form a grid. If any point of the
grid lies in the interval, so does one of the two points around the double
itself, and only these two are looked at.
-/

namespace TreeQuery

/-- A decimal `digits · 10 ^ exponent`. -/
structure Decimal where
  digits : Nat
  exponent : Int
  deriving DecidableEq, Repr, Inhabited

namespace Decimal

/-- The written digits, at least one. -/
def written (d : Decimal) : List Char :=
  Nat.toDigits 10 d.digits

/-- The exponent of the first written digit. -/
def leading (d : Decimal) : Int :=
  d.exponent + d.written.length - 1

/-- The same decimal without zeros at its end. The first argument bounds how
many are taken off. -/
def trim : Nat → Decimal → Decimal
  | 0, d => d
  | fuel + 1, d =>
    if d.digits ≠ 0 ∧ d.digits % 10 = 0 then trim fuel ⟨d.digits / 10, d.exponent + 1⟩
    else d

end Decimal

namespace Double

/-- The exponent of the first decimal digit of a positive fraction: the `p`
with `10 ^ p ≤ num / den < 10 ^ (p + 1)`. -/
def leadingExponent (num den : Nat) : Int :=
  if den ≤ num then ((Nat.toDigits 10 (num / den)).length : Int) - 1
  else
    let k := (Nat.toDigits 10 (den / num)).length
    if den ≤ num * tenTo (k - 1) then -((k : Int) - 1) else -(k : Int)

/-- The interval of a double in quarters of its last bit: lower end, the number
itself, upper end. Below a power of two the neighbour is only half as far. -/
def quarters (x : Double) : Nat × Nat × Nat :=
  let lower :=
    if x.mantissa = fullMantissa ∧ minExponent < x.exponent then 4 * x.mantissa - 1
    else 4 * x.mantissa - 2
  (lower, 4 * x.mantissa, 4 * x.mantissa + 2)

/-- The point of the grid `10 ^ u` that stands for the number, if one lies in
its interval. -/
def onGrid? (x : Double) (u : Int) : Option Nat :=
  let e := x.exponent - 2
  let step := tenTo u.toNat * twoTo (-e).toNat
  let unit := tenTo (-u).toNat * twoTo e.toNat
  let (lower, value, upper) := x.quarters
  let inside (c : Nat) : Bool :=
    if x.mantissa % 2 = 0 then lower * unit ≤ c * step && c * step ≤ upper * unit
    else lower * unit < c * step && c * step < upper * unit
  let below := value * unit / step
  match inside below, inside (below + 1) with
  | false, false => none
  | true, false => some below
  | false, true => some (below + 1)
  | true, true =>
    let down := value * unit - below * step
    let up := (below + 1) * step - value * unit
    if down < up then some below
    else if up < down then some (below + 1)
    else if below % 2 = 0 then some below else some (below + 1)

/-- The first grid, from `n` digits on, that has a point in the interval. The
first argument is the number of grids still to try. -/
def firstGrid (x : Double) (p : Int) : Nat → Int → Decimal
  | 0, _ => ⟨0, 0⟩
  | tries + 1, n =>
    match x.onGrid? (p - n + 1) with
    | some c => ⟨c, p - n + 1⟩
    | none => firstGrid x p tries (n + 1)

/-- The shortest decimal that reads back as the number; seventeen digits are
always enough. -/
def shortest (x : Double) : Decimal :=
  if x.isZero then ⟨0, 0⟩
  else
    let p := leadingExponent x.ratio.1 x.ratio.2
    (firstGrid x p 17 1).trim 17

end Double

end TreeQuery
