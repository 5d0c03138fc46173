/-
# Refusing an order before it is sent

Only sells are looked at: they need a long position at least as large as the
order, up to the tolerance for quantities. The verdict depends on the order and
the ledger alone.

Key definitions: `Refusal`, `Rejection`, `Ledger.refusal?`.
-/
import Brokerage.Ledger
import Brokerage.Order

namespace Brokerage

/-- Why a sell is not sent. -/
inductive Refusal (α : Type) where
  | noPosition (held : α)
  | exceedsPosition (held requested : α)
  deriving Repr

/-- An order that was not sent, and why. -/
structure Rejection (α : Type) [Amount α] where
  order : Order α
  reason : Refusal α

section

variable {α : Type} [Amount α]

/-- The objection to an order, if there is one. -/
def Ledger.refusal? (l : Ledger α) (order : Order α) : Option (Refusal α) :=
  if !order.kind.isSell then none
  else
    let held := l.position order.symbol
    if held ≤ 0 then some (.noPosition held)
    else if held < order.quantity && !isFlat (order.quantity - held) held then
      some (.exceedsPosition held order.quantity)
    else none

end

open Decimal (plain)

def Refusal.describe : Refusal Float → String
  | .noPosition held => "no position to sell (held " ++ plain held ++ ")"
  | .exceedsPosition held requested =>
    "sell of " ++ plain requested ++ " exceeds position " ++ plain held

def Rejection.describe (r : Rejection Float) : String :=
  "rejected " ++ r.order.describe ++ ": " ++ r.reason.describe

end Brokerage
