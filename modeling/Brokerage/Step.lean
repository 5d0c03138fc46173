/-
# Steps

A step is a reply of the service that can be applied: every quantity and value is
finite, fills have none below zero, and every acknowledged order is an order.

Key definitions: `Step`, `StepDefect`, `StepReply.check`.
-/
import Brokerage.Service

namespace Brokerage

structure Step (α : Type) [Amount α] where
  hasNext : Bool
  executed : List (Execution α)
  inserted : List (OrderId × Order α)
  quotes : Quotes α
  depths : Depths α
  time : Option Timestamp

/-- What makes a reply unfit to be applied. -/
inductive StepDefect (α : Type) where
  | notFinite (order : OrderId)
  | negative (order : OrderId)
  | badOrder (id : OrderId) (fault : OrderFault α)
  deriving Repr

section

variable {α : Type} [Amount α]

def Execution.defect? (e : Execution α) : Option (StepDefect α) :=
  if !(Amount.isFinite e.quantity && Amount.isFinite e.value) then some (.notFinite e.order)
  else if e.kind.isFill && (decide (e.quantity < 0) || decide (e.value < 0)) then
    some (.negative e.order)
  else none

def Placement.check (p : Placement α) : Except (StepDefect α) (OrderId × Order α) :=
  match Order.ofTicket p.ticket with
  | .error fault => .error (.badOrder p.id fault)
  | .ok order => .ok (p.id, order)

/-- The step that a reply tells, or its first defect: executions are looked at
first, then the acknowledged orders. -/
def StepReply.check (r : StepReply α) : Except (StepDefect α) (Step α) :=
  match r.executed.findSome? Execution.defect? with
  | some defect => .error defect
  | none => do
    let inserted ← r.inserted.mapM Placement.check
    return ⟨r.hasNext, r.executed, inserted, r.quotes, r.depths, r.time⟩

end

def StepDefect.message : StepDefect Float → String
  | .notFinite order => "result for " ++ order.describe ++ " has a non-finite quantity or value"
  | .negative order => "fill for " ++ order.describe ++ " has a negative quantity or value"
  | .badOrder id fault => "inserted order " ++ id.describe ++ " is malformed: " ++ fault.message

end Brokerage
