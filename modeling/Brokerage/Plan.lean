/-
# Plans

A plan says before which step an order is to be inserted. The orders of a plan
are sorted by step; those of one step keep the order in which they were written.

Key definitions: `Plan`, `Plan.ofEntries`, `Plan.ofJson`, `Plan.ordersFor`,
`Plan.describe`.
-/
import Brokerage.Wire.Session

namespace Brokerage

structure PlannedOrder (α : Type) [Amount α] where
  step : Nat
  order : Order α

structure Plan (α : Type) [Amount α] where
  orders : List (PlannedOrder α)

/-- An entry of a plan whose ticket is not an order. -/
structure BadEntry (α : Type) where
  index : Nat
  step : Nat
  fault : OrderFault α
  deriving Repr

/-- Why a text is not a plan. -/
inductive PlanFault where
  | unreadable (fault : Wire.Fault)
  | badEntry (entry : BadEntry Float)
  deriving Repr

namespace Plan

variable {α : Type} [Amount α]

/-- The orders of the entries, or the first entry that has none. -/
def check (index : Nat) : List (Nat × Ticket α) → Except (BadEntry α) (List (PlannedOrder α))
  | [] => .ok []
  | (step, ticket) :: entries =>
    match Order.ofTicket ticket with
    | .error fault => .error ⟨index, step, fault⟩
    | .ok order => (check (index + 1) entries).map (⟨step, order⟩ :: ·)

def sortBySteps (orders : List (PlannedOrder α)) : List (PlannedOrder α) :=
  orders.mergeSort fun a b => a.step ≤ b.step

def ofEntries (entries : List (Nat × Ticket α)) : Except (BadEntry α) (Plan α) :=
  (check 0 entries).map fun orders => ⟨sortBySteps orders⟩

/-- The orders to insert before a step. -/
def ordersFor (plan : Plan α) (step : Nat) : List (Order α) :=
  (plan.orders.filter (·.step == step)).map (·.order)

/-- The last step with an order. -/
def lastStep (plan : Plan α) : Option Nat :=
  plan.orders.getLast?.map (·.step)

end Plan

namespace Wire

/-- An entry stands in an array inside the plan, three levels down. -/
def readEntry : Reader (Nat × Ticket Float) := fun t => do
  let (step, fields) ←
    Form.readBeside (.one (required "step" natural)) (ticketForm .kept) (maxNesting - 3) t
  return (step.toNat, ticketOfFields fields)

def readEntries : Reader (List (Nat × Ticket Float)) :=
  (Form.one (required "orders" (list readEntry))).read

end Wire

namespace Plan

def ofJson (s : String) : Except PlanFault (Plan Float) :=
  match Wire.parse Wire.readEntries s with
  | .error fault => .error (.unreadable fault)
  | .ok entries =>
    match ofEntries entries with
    | .error entry => .error (.badEntry entry)
    | .ok plan => .ok plan

/-- A number, filled up with blanks on the left. -/
def rightAligned (width n : Nat) : String :=
  let digits := toString n
  String.ofList (List.replicate (width - digits.length) ' ') ++ digits

/-- One line for every order. -/
def describe (plan : Plan Float) : String :=
  if plan.orders.isEmpty then "Plan is empty.\n"
  else
    "Plan: " ++ toString plan.orders.length ++ " orders\n"
      ++ String.join (plan.orders.map fun p =>
        "  step " ++ rightAligned 4 p.step ++ "  " ++ p.order.describe ++ "\n")

end Plan

/-- Nothing is said about what the reader did not like. -/
def PlanFault.message : PlanFault → String
  | .unreadable _ => "failed to parse plan JSON"
  | .badEntry entry =>
    "plan error: order #" ++ toString entry.index ++ " (step " ++ toString entry.step ++ "): "
      ++ entry.fault.message

end Brokerage
