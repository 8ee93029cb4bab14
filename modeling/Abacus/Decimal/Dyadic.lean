/-!
# Floats as whole numbers times powers of two

Every finite float is `± mantissa · 2 ^ exponent` with a mantissa below `2 ^ 53` and an exponent of
at least `-1074`. The exact rules of this library (decimal text, remainder, counts) are stated on
these two numbers; `Dyadic.ofFloat` reads them off the bits and `Dyadic.toFloat` puts them back.
Powers are written with `Nat.pow`: it is one function whatever algebra is imported beside it.
-/
namespace Abacus

/-- The number `± mantissa · 2 ^ exponent`. The sign stands apart, so that there are two zeros, as
there are two of them among the floats. -/
structure Dyadic where
  negative : Bool
  mantissa : Nat
  exponent : Int
  deriving DecidableEq

namespace Dyadic

/-- The parts of a finite float. An exponent field of zero marks the subnormal numbers, which have
no hidden leading bit and share the exponent of field one. -/
def ofFloat (x : Float) : Dyadic :=
  let bits := x.toBits.toNat
  let fraction := bits % Nat.pow 2 52
  let field := bits / Nat.pow 2 52 % Nat.pow 2 11
  { negative := Nat.pow 2 63 ≤ bits
    mantissa := if field = 0 then fraction else Nat.pow 2 52 + fraction
    exponent := (max field 1 : Nat) - 1075 }

/-- The float with these parts, for a mantissa below `2 ^ 53` and an exponent of at least `-1074`.
The mantissa is moved left until its leading bit is the hidden one, or as far as the least exponent
allows; the field then counts from that exponent. -/
def toFloat (d : Dyadic) : Float :=
  let sign := if d.negative then Nat.pow 2 63 else 0
  if d.mantissa = 0 then
    Float.ofBits (UInt64.ofNat sign)
  else
    let shift := min (52 - d.mantissa.log2) (d.exponent + 1074).toNat
    let field := (d.exponent + 1074).toNat - shift
    Float.ofBits (UInt64.ofNat (sign + field * Nat.pow 2 52 + d.mantissa * Nat.pow 2 shift))

end Dyadic

namespace Decimal

/-- The sign bit, which also tells `-0` from `0`: what `is_sign_negative` looks at. -/
def isNegative (x : Float) : Bool :=
  (Dyadic.ofFloat x).negative

/-- The natural number that a float is, if it is one. Both zeros are `0`. These are the floats that
`pop_count` takes for a count: not below zero, finite and without a fraction. -/
def whole? (x : Float) : Option Nat :=
  let d := Dyadic.ofFloat x
  if x.isFinite = false then
    none
  else if d.mantissa = 0 then
    some 0
  else if d.negative then
    none
  else if 0 ≤ d.exponent then
    some (d.mantissa * Nat.pow 2 d.exponent.toNat)
  else if d.mantissa % Nat.pow 2 (-d.exponent).toNat = 0 then
    some (d.mantissa / Nat.pow 2 (-d.exponent).toNat)
  else
    none

/-! ## The remainder -/

/-- The exact remainder, which is the operator `%` on floats: `x - n · y` for the whole number `n`
that the quotient is cut to. Both sides are whole multiples of the smaller of their two powers of
two, so the remainder is one of natural numbers, and it is small enough to be a float again. Its
sign is that of `x`, also when it is zero. An infinite `x`, a zero `y` and a NaN give NaN; an
infinite `y` is never reached, so `x` itself remains. -/
def remainder (x y : Float) : Float :=
  if x.isFinite = false || y.isNaN || y == 0 then
    0 / 0
  else if y.isFinite = false then
    x
  else
    let a := Dyadic.ofFloat x
    let b := Dyadic.ofFloat y
    let e := min a.exponent b.exponent
    let m := a.mantissa * Nat.pow 2 (a.exponent - e).toNat
    let n := b.mantissa * Nat.pow 2 (b.exponent - e).toNat
    Dyadic.toFloat { negative := a.negative, mantissa := m % n, exponent := e }

end Decimal
end Abacus
