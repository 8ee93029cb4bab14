import Abacus.Decimal.Dyadic

/-!
# The shortest decimal of a float

Reading decimal text rounds to the nearest float, so a whole interval of reals reads back as a given
float. Among the decimals `digits · 10 ^ power` of that interval `shortest` chooses one with the
fewest digits, of those the nearest to the float, and of two equally near the greater.

The choice is made on the grids `10 ^ power`, coarse to fine. If any point of a grid lies in the
interval then so does one of the float's two neighbours on that grid, so only those are tried.
-/
namespace Abacus.Decimal

/-- The reals that read back as one positive float, over a common denominator: `value` is the float,
`low` and `high` lie half way to its neighbours and belong to the interval if it is `closed`. -/
structure Interval where
  low : Nat
  value : Nat
  high : Nat
  scale : Nat
  closed : Bool

namespace Interval

/-- The interval of a positive finite float. Below a power of two the floats lie twice as dense, so
there the lower half gap is half as wide; a tie reads back as the float with the even mantissa. -/
def ofDyadic (d : Dyadic) : Interval :=
  let gap := if d.mantissa = Nat.pow 2 52 ∧ -1074 < d.exponent then 1 else 2
  let up := Nat.pow 2 (d.exponent - 2).toNat
  { low := (4 * d.mantissa - gap) * up
    value := 4 * d.mantissa * up
    high := (4 * d.mantissa + 2) * up
    scale := Nat.pow 2 (2 - d.exponent).toNat
    closed := d.mantissa % 2 = 0 }

/-- Does `n` lie in the interval widened by `factor`? -/
def contains (i : Interval) (factor n : Nat) : Bool :=
  if i.closed then
    i.low * factor ≤ n && n ≤ i.high * factor
  else
    i.low * factor < n && n < i.high * factor

/-- The multiple of `10 ^ power` to write for the interval, if one of the value's two neighbours on
that grid reads back. -/
def neighbour? (i : Interval) (power : Int) : Option Nat :=
  let factor := Nat.pow 10 (-power).toNat
  let step := Nat.pow 10 power.toNat * i.scale
  let value := i.value * factor
  let k := value / step
  let below := i.contains factor (k * step)
  let above := i.contains factor ((k + 1) * step)
  if above && (!below || (k + 1) * step - value ≤ value - k * step) then
    some (k + 1)
  else if below then
    some k
  else
    none

end Interval

/-- The number `digits · 10 ^ power`; the digits are those that decimal text shows. -/
structure Scaled where
  digits : Nat
  power : Int
  deriving DecidableEq

/-- Every decimal digit of a positive dyadic number, to fall back on. -/
def exact (d : Dyadic) : Scaled :=
  { digits := d.mantissa * Nat.pow 2 d.exponent.toNat * Nat.pow 5 (-d.exponent).toNat
    power := min d.exponent 0 }

/-- A power of ten that no number of the interval exceeds by more than a digit; `30103 / 100000` is
just above the decimal logarithm of two. -/
def topPower (d : Dyadic) : Int :=
  (d.exponent + d.mantissa.log2 + 1) * 30103 / 100000 + 1

/-- The shortest decimal that reads back as a positive finite number. Seventeen digits always do,
and the search starts at most two places above the first of them. -/
def shortest (d : Dyadic) : Scaled :=
  let interval := Interval.ofDyadic d
  let grids := (List.range 24).map fun (n : Nat) => topPower d - n
  let found := grids.findSome? fun power =>
    (interval.neighbour? power).map fun digits => { digits := digits, power := power : Scaled }
  found.getD (exact d)

end Abacus.Decimal
