/-
# The blotter

The orders of a client between insertion and their end: pending orders have not
been sent, resting orders have been acknowledged by the service and are not yet
filled. Filled and withdrawn orders leave the blotter.

Key definitions: `Blotter`, `Blotter.flush`, `Blotter.place`, `Blotter.fill`,
`Blotter.cancel`, `Blotter.modify`, `Desync`.
-/
import Brokerage.Refusal

namespace Brokerage

/-- A resting order and how much of it is still open. -/
structure Resting (α : Type) [Amount α] where
  order : Order α
  remaining : α

/-- Pending orders, the oldest first, and resting orders by number. -/
structure Blotter (α : Type) [Amount α] where
  pending : List (Order α)
  resting : Table OrderId (Resting α)

/-- The service speaks of an order in a way that the blotter cannot follow. -/
inductive Desync where
  | alreadyResting (id : OrderId)
  | noReference (id : OrderId) (kind : ExecutionKind)
  | targetNotResting (target : OrderId) (kind : ExecutionKind)
  | instructionUntracked (id : OrderId)
  deriving DecidableEq, Repr

/-- What a fill did to the order that it names. -/
inductive FillProgress (α : Type) where
  /-- The order was not resting: it was filled on arrival. -/
  | untracked
  | partly (remaining : α)
  | completed
  deriving Repr

/-- Pending orders sorted into those to send and those not to, each in the order
of insertion. -/
structure Flush (α : Type) [Amount α] where
  accepted : List (Order α)
  rejected : List (Rejection α)

section

variable {α : Type} [Amount α]

/-- Sorts orders by the ledger as it stands; they do not influence each other. -/
def Ledger.sift (l : Ledger α) : List (Order α) → Flush α
  | [] => ⟨[], []⟩
  | order :: orders =>
    let flush := l.sift orders
    match l.refusal? order with
    | none => { flush with accepted := order :: flush.accepted }
    | some reason => { flush with rejected := ⟨order, reason⟩ :: flush.rejected }

/-- Nothing is left of an order: its rest is not positive, or flat beside
`scale`. -/
def isSpent (rest scale : α) : Bool :=
  decide (rest ≤ 0) || isFlat rest scale

end

namespace Blotter

variable {α : Type} [Amount α]

def empty : Blotter α :=
  ⟨[], ∅⟩

def isResting (b : Blotter α) (id : OrderId) : Bool :=
  b.resting.contains id

/-- Keeps an order for the next flush. Nothing is checked here. -/
def enqueue (b : Blotter α) (order : Order α) : Blotter α :=
  { b with pending := b.pending ++ [order] }

/-- Empties the pending orders and sorts them. -/
def flush (b : Blotter α) (l : Ledger α) : Flush α × Blotter α :=
  (l.sift b.pending, { b with pending := [] })

/-- Follows an order that the service acknowledged. -/
def place (b : Blotter α) (id : OrderId) (order : Order α) : Except Desync (Blotter α) :=
  if b.isResting id then .error (.alreadyResting id)
  else .ok { b with resting := b.resting.insert id ⟨order, order.quantity⟩ }

/-- Takes a fill off a resting order, which leaves once nothing remains. -/
def fill (b : Blotter α) (e : Execution α) : FillProgress α × Blotter α :=
  match b.resting.get? e.order with
  | none => (.untracked, b)
  | some resting =>
    let rest := resting.remaining - e.quantity
    if isSpent rest (larger resting.remaining e.quantity) then
      (.completed, { b with resting := b.resting.erase e.order })
    else
      let entry := { resting with remaining := rest }
      (.partly rest, { b with resting := b.resting.insert e.order entry })

/-- The resting order that a cancel or modify refers to. -/
def target (b : Blotter α) (e : Execution α) : Except Desync OrderId :=
  match e.reference with
  | none => .error (.noReference e.order e.kind)
  | some id => if b.isResting id then .ok id else .error (.targetNotResting id e.kind)

/-- Removes an instruction to cancel and the order it withdrew; both must be
resting. -/
def cancel (b : Blotter α) (e : Execution α) : Except Desync (Blotter α) := do
  let target ← b.target e
  if b.isResting e.order then
    .ok { b with resting := (b.resting.erase e.order).erase target }
  else .error (.instructionUntracked e.order)

/-- Adds a change to what remains of the order referred to, which leaves if
nothing does. The instruction itself leaves if it was resting. -/
def modify (b : Blotter α) (e : Execution α) : Except Desync (Blotter α) := do
  let target ← b.target e
  let resting := b.resting.erase e.order
  match resting.get? target with
  | none => .ok { b with resting := resting }
  | some entry =>
    let rest := entry.remaining + e.quantity
    if isSpent rest (larger entry.remaining (magnitude e.quantity)) then
      .ok { b with resting := resting.erase target }
    else .ok { b with resting := resting.insert target { entry with remaining := rest } }

end Blotter

/-- The order number that a desync is about. -/
def Desync.order : Desync → OrderId
  | .alreadyResting id | .noReference id _ | .targetNotResting id _ | .instructionUntracked id => id

def Desync.detail : Desync → String
  | .alreadyResting _ => "service inserted an id that is already resting"
  | .noReference _ kind => kind.label ++ " result without a reference order id"
  | .targetNotResting _ kind => kind.label ++ " references an order that is not resting"
  | .instructionUntracked _ => "cancel instruction was never tracked"

end Brokerage
