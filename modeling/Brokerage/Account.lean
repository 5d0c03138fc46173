/-
# The account

Ledger and blotter together. An execution is reconciled with both or with
neither.

Key definitions: `Account`, `Account.reconcile`, `Discrepancy`.
-/
import Brokerage.Blotter

namespace Brokerage

structure Account (α : Type) [Amount α] where
  ledger : Ledger α
  blotter : Blotter α

/-- An item of a step that the account cannot follow. -/
inductive Discrepancy (α : Type) where
  | insolvent (cause : Insolvency α)
  | desync (cause : Desync)
  deriving Repr

namespace Account

variable {α : Type} [Amount α]

def ofCash (cash : α) : Account α :=
  ⟨Ledger.ofCash cash, Blotter.empty⟩

/-- A fill is booked and taken off its order; a cancel or modify changes the
blotter only. -/
def reconcile (a : Account α) (e : Execution α) : Except (Discrepancy α) (Account α) :=
  match e.kind with
  | .buy | .sell =>
    match a.ledger.apply e with
    | .error cause => .error (.insolvent cause)
    | .ok ledger => .ok ⟨ledger, (a.blotter.fill e).2⟩
  | .cancel =>
    match a.blotter.cancel e with
    | .error cause => .error (.desync cause)
    | .ok blotter => .ok { a with blotter := blotter }
  | .modify =>
    match a.blotter.modify e with
    | .error cause => .error (.desync cause)
    | .ok blotter => .ok { a with blotter := blotter }

/-- Follows an order that the service acknowledged. -/
def place (a : Account α) (id : OrderId) (order : Order α) :
    Except (Discrepancy α) (Account α) :=
  match a.blotter.place id order with
  | .error cause => .error (.desync cause)
  | .ok blotter => .ok { a with blotter := blotter }

end Account
end Brokerage
