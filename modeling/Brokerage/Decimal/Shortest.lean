/-
# The fewest digits that read back

Of all decimals that read back to a double, the shortest is written; among the
shortest, the one nearest to the double; on an exact tie the format decides.
The search looks at the grids of one, two, ... seventeen significant digits, and
on each at the double's two neighbours: if any point of a grid reads back, one of
these two does.

Key definitions: `Tie`, `shortest`.
-/
import Brokerage.Decimal.Binary

namespace Brokerage
namespace Decimal

/-- Which of two equally near decimals is written. -/
inductive Tie where
  | toEven
  | up
  deriving Repr, DecidableEq

/-- Is the double below `10 ^ k`? -/
def Binary.below (b : Binary) (k : Int) : Bool :=
  let pair := Scaled.against ⟨1, k⟩ b.mantissa b.exponent
  pair.2 < pair.1

/-- The least `k` with the double below `10 ^ k`; the binary logarithm leaves two
candidates. -/
def Binary.magnitude (b : Binary) : Int :=
  let log := (b.mantissa.log2 + b.exponent) * 30103 / 100000
  if b.below (log + 1) then log + 1 else log + 2

/-- The greatest multiple of `10 ^ power` that is at most the double. -/
def Binary.floorAt (b : Binary) (power : Int) : Scaled :=
  ⟨b.mantissa * raised 2 b.exponent * raised 10 (-power)
    / (raised 2 (-b.exponent) * raised 10 power), power⟩

/-- Of a grid point at or below the double and the next one up, the one to write,
if either reads back. -/
def Binary.pick (b : Binary) (tie : Tie) (lower : Scaled) : Option Scaled :=
  let upper : Scaled := ⟨lower.digits + 1, lower.power⟩
  match b.readsBack lower, b.readsBack upper with
  | false, false => none
  | true, false => some lower
  | false, true => some upper
  | true, true =>
    let (midpoint, double) :=
      Scaled.against ⟨lower.digits + upper.digits, lower.power⟩ (2 * b.mantissa) b.exponent
    if double < midpoint then some lower
    else if midpoint < double then some upper
    else match tie with
      | .up => some upper
      | .toEven => if lower.digits % 2 == 0 then some lower else some upper

/-- Searches the grids with `n`, `n + 1`, ... digits, `fuel` of them. -/
def Binary.search (b : Binary) (tie : Tie) (top : Int) : Nat → Nat → Option Scaled
  | 0, _ => none
  | fuel + 1, n =>
    match b.pick tie (b.floorAt (top - n)) with
    | some d => some d
    | none => b.search tie top fuel (n + 1)

/-- Drops trailing zeros into the power; `fuel` bounds their number. -/
def Scaled.strip : Nat → Scaled → Scaled
  | 0, d => d
  | fuel + 1, d =>
    if d.digits != 0 && d.digits % 10 == 0 then strip fuel ⟨d.digits / 10, d.power + 1⟩ else d

/-- The exact decimal value of the double. -/
def Binary.exact (b : Binary) : Scaled :=
  if 0 ≤ b.exponent then ⟨b.mantissa * raised 2 b.exponent, 0⟩
  else ⟨b.mantissa * raised 5 (-b.exponent), b.exponent⟩

/-- The shortest decimal that reads back to a double that is not zero. -/
def shortest (tie : Tie) (b : Binary) : Scaled :=
  Scaled.strip 20 ((b.search tie b.magnitude 17 1).getD b.exact)

end Decimal
end Brokerage
