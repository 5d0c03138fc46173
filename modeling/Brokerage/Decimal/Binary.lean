/-
# A double as an exact number

A finite double is a whole number of units of a power of two. Everything this
library writes about amounts (shortest digits, fixed places, nanoseconds) is
computed exactly from that pair.

Key definitions: `Class`, `classify`, `Binary.readsBack`.
-/
namespace Brokerage
namespace Decimal

/-- A finite non-negative value, `mantissa · 2 ^ exponent`. -/
structure Binary where
  mantissa : Nat
  exponent : Int
  /-- The double below is half as far away as the double above. -/
  narrowBelow : Bool
  deriving Repr, DecidableEq

/-- What a double stands for: no number, an infinity, or a finite value with
its sign (zero has one too). -/
inductive Class where
  | nan
  | infinite (negative : Bool)
  | finite (negative : Bool) (magnitude : Binary)
  deriving Repr, DecidableEq

/-- A base raised to an exponent; one when the exponent is negative. -/
def raised (base : Nat) (e : Int) : Nat :=
  Nat.pow base e.toNat

/-- Reads the three fields of a double: sign, exponent and fraction. -/
def classifyBits (bits : Nat) : Class :=
  let negative := bits / raised 2 63 % 2 == 1
  let scale : Nat := bits / raised 2 52 % 2048
  let fraction : Nat := bits % raised 2 52
  if scale == 2047 then
    if fraction == 0 then .infinite negative else .nan
  else if scale == 0 then .finite negative ⟨fraction, -1074, false⟩
  else .finite negative ⟨raised 2 52 + fraction, (scale : Int) - 1075, fraction == 0 && scale != 1⟩

def classify (x : Float) : Class :=
  classifyBits x.toBits.toNat

/-- `digits · 10 ^ power`. -/
structure Scaled where
  digits : Nat
  power : Int
  deriving Repr, DecidableEq

/-- `d · 10 ^ p` and `n · 2 ^ e` over one denominator: the pair compares as the
two numbers do. -/
def Scaled.against (d : Scaled) (n : Nat) (e : Int) : Nat × Nat :=
  (d.digits * raised 10 d.power * raised 2 (-e), n * raised 2 e * raised 10 (-d.power))

/-- A decimal reads back to the double exactly when it lies between the halfway
points to the two neighbours, the points themselves included when the mantissa
is even. The halfway points are counted in quarters of the double's own unit. -/
def Binary.readsBack (b : Binary) (d : Scaled) : Bool :=
  let below := d.against (4 * b.mantissa - if b.narrowBelow then 1 else 2) (b.exponent - 2)
  let above := d.against (4 * b.mantissa + 2) (b.exponent - 2)
  if b.mantissa % 2 == 0 then below.2 ≤ below.1 && above.1 ≤ above.2
  else below.2 < below.1 && above.1 < above.2

end Decimal
end Brokerage
