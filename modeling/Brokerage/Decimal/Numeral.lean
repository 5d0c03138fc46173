/-
# Numerals and the doubles they stand for

A numeral is kept as it was written: sign, digits, point and exponent. Two
readings of it are used. `nearest` is the double nearest to the exact value.
`quick` is what the exchange format prescribes: the leading digits that fit a
64-bit word become a double, which is then multiplied or divided by one power of
ten. The two differ in the last place for some long numerals.

Key definitions: `Numeral`, `Numeral.natural?`, `Numeral.integer?`,
`Numeral.quick?`, `Numeral.nearest`.
-/
import Brokerage.Decimal.Binary

namespace Brokerage
namespace Decimal

/-- A decimal numeral. `integral` holds when neither point nor exponent is
written. -/
structure Numeral where
  negative : Bool
  whole : List Nat
  fraction : List Nat
  exponent : Int
  integral : Bool
  deriving Repr, DecidableEq

/-- The number that a row of digits spells. -/
def ofDigits (digits : List Nat) : Nat :=
  digits.foldl (fun n d => 10 * n + d) 0

/-- A numeral without sign, point and exponent, if it fits a 64-bit word. -/
def Numeral.natural? (n : Numeral) : Option Nat :=
  let value := ofDigits n.whole
  if n.integral && !n.negative && value < UInt64.size then some value else none

/-- A numeral without point and exponent, if it fits a signed 64-bit word. Zero
with a minus sign is not an integer. -/
def Numeral.integer? (n : Numeral) : Option Int :=
  let value : Int := ofDigits n.whole
  if !n.integral then none
  else if n.negative then
    if value != 0 && Int64.minValue.toInt ≤ -value then some (-value) else none
  else if value ≤ Int64.maxValue.toInt then some value else none

/-- Digits are taken into a 64-bit word while they fit; the second number counts
those left over. -/
def takeWhole : Nat → List Nat → Nat × Nat
  | n, [] => (n, 0)
  | n, d :: ds => if 10 * n + d < UInt64.size then takeWhole (10 * n + d) ds else (n, ds.length + 1)

/-- Digits after the point are taken while they fit; the second number counts
those taken. -/
def takeFraction : Nat → List Nat → Nat × Nat
  | n, [] => (n, 0)
  | n, d :: ds =>
    if 10 * n + d < UInt64.size then
      let (value, taken) := takeFraction (10 * n + d) ds
      (value, taken + 1)
    else (n, 0)

/-- The double nearest to `10 ^ k`. -/
def powerOfTen (k : Nat) : Float :=
  Float.ofScientific 1 false k

/-- A double times a power of ten, in one rounded step, or in two when the power
is below the least one a double holds. Nothing is given for a result too large. -/
def shifted (x : Float) (exponent : Int) : Option Float :=
  if 0 ≤ exponent then
    if exponent ≤ 308 then
      let y := x * powerOfTen exponent.toNat
      if y.isFinite then some y else none
    else if x == 0.0 then some x else none
  else
    let k := (-exponent).toNat
    if k ≤ 308 then some (x / powerOfTen k)
    else if k ≤ 616 then some (x / powerOfTen 308 / powerOfTen (k - 308))
    else some 0.0

/-- The double of a numeral in the exchange format; nothing if it is out of
range. -/
def Numeral.quick? (n : Numeral) : Option Float :=
  let (high, spilled) := takeWhole 0 n.whole
  let (value, taken) := takeFraction high n.fraction
  let exponent := n.exponent + spilled - taken
  (shifted (Float.ofScientific value false 0) exponent).map fun x => if n.negative then -x else x

/-- The double nearest to the exact value, an infinity when that is too large. -/
def Numeral.nearest (n : Numeral) : Float :=
  let value := ofDigits (n.whole ++ n.fraction)
  let power := n.exponent - n.fraction.length
  let top := power + (toString value).length
  let x :=
    if value == 0 || top < -400 then 0.0
    else if 400 < top then 1.0 / 0.0
    else Float.ofScientific value (power < 0) power.natAbs
  if n.negative then -x else x

end Decimal
end Brokerage
