/-
# Amounts

Prices, quantities, cash and values are amounts. The rules of the account use
only the operations named here, so that they hold of the doubles that the program
computes with and can be read over exact numbers as well.

A quantity counts as zero when it is small beside the quantities it was computed
from: adding and subtracting fractional quantities leaves a rest that no trade
caused.

Key definitions: `Amount`, `isFlat`.
-/
namespace Brokerage

/-- Numbers that the account can be kept in. -/
class Amount (α : Type) extends Add α, Sub α, Mul α, Div α, Neg α, LT α, LE α, Zero α, One α where
  ltDecidable : DecidableLT α
  leDecidable : DecidableLE α
  /-- Neither infinite nor undefined. -/
  isFinite : α → Bool
  /-- The relative size under which a quantity counts as zero. -/
  tolerance : α
  /-- A whole number as an amount. -/
  count : Nat → α

attribute [reducible, instance] Amount.ltDecidable Amount.leDecidable

instance : Amount Float where
  zero := 0.0
  one := 1.0
  ltDecidable := inferInstance
  leDecidable := inferInstance
  isFinite := Float.isFinite
  tolerance := 1e-9
  count n := Float.ofScientific n false 0

section

variable {α : Type} [Amount α]

/-- An amount without its sign. -/
def magnitude (a : α) : α :=
  if a < 0 then -a else a

/-- The larger of two amounts; one that compares with nothing is passed over. -/
def larger (a b : α) : α :=
  if a ≤ b then b
  else if b ≤ a then a
  else if a ≤ a then a
  else b

/-- A quantity is flat when it is zero up to the rounding left by summing
quantities of magnitude `scale`. -/
def isFlat (quantity scale : α) : Bool :=
  decide (magnitude quantity ≤ Amount.tolerance * larger (magnitude scale) 1)

end

end Brokerage
