/-
# Orders and executions in exchanged messages

An order that is read is checked like any other. Beside other fields of one
object an order is kept as a value first and read afterwards.

Key definitions: `readTicket`, `readOrder`, `readPlacement`, `readExecution`,
`Ticket.toJson`, `Execution.toJson`, `Rejection.toJson`.
-/
import Brokerage.Json.Value
import Brokerage.Refusal
import Brokerage.Service
import Brokerage.Wire.Form

namespace Brokerage
namespace Wire

open Json (Tree Value)

/-- How a value comes to its reader: from the text, or kept beforehand. -/
inductive Source where
  | fromText
  | kept
  deriving DecidableEq, Repr

/-- One of a set of names. -/
def choose {β : Type} (ofName? : String → Option β) (expected : List String) (name : String) :
    Except Fault β :=
  match ofName? name with
  | some b => .ok b
  | none => .error (.unknownName name expected)

/-- A name may also be written as an object with that one member, whose value is
`null`; for one that was kept, an empty object will do as well. -/
def named {β : Type} (ofName? : String → Option β) (expected : List String) (source : Source) :
    Reader β
  | .text (some name) => choose ofName? expected name
  | .object ((some name, value) :: members) closed =>
    if source = .kept && !members.isEmpty then .error .unreadable
    else do
      let b ← choose ofName? expected name
      match value with
      | .null => if members.isEmpty && closed then return b else .error .unreadable
      | .object [] true => if source = .kept then return b else .error .unreadable
      | _ => .error .unreadable
  | _ => .error .unreadable

def orderKind (source : Source) : Reader OrderKind :=
  named OrderKind.ofName? (OrderKind.all.map OrderKind.name) source

def executionKind : Reader ExecutionKind :=
  named ExecutionKind.ofName? (ExecutionKind.all.map ExecutionKind.name) .fromText

def ticketForm (source : Source) :
    Form (OrderKind × Symbol × Float × Option Float × Option OrderId) :=
  .both (.one (required "order_type" (orderKind source)))
    (.both (.one (required "symbol" symbol))
      (.both (.one (required "qty" amount))
        (.both (.one (optional "price" (nullable amount) none))
          (.one (optional "order_id_ref" (nullable orderId) none)))))

def ticketOfFields : OrderKind × Symbol × Float × Option Float × Option OrderId → Ticket Float
  | (kind, symbol, quantity, price, reference) => ⟨kind, symbol, quantity, price, reference⟩

def readTicket : Reader (Ticket Float) :=
  fun t => ((ticketForm .fromText).read t).map ticketOfFields

/-- The order of a ticket, as far as it is one. -/
def checked (ticket : Ticket Float) : Except Fault (Order Float) :=
  match Order.ofTicket ticket with
  | .ok order => .ok order
  | .error fault => .error (.badOrder fault)

def readOrder : Reader (Order Float) := fun t => do
  checked (← readTicket t)

/-- An order beside its number; `levels` bounds the nesting of what stands
beside them. -/
def readPlacement (levels : Nat) : Reader (Placement Float) := fun t => do
  let (id, fields) ←
    Form.readBeside (.one (required "order_id" orderId)) (ticketForm .kept) levels t
  return ⟨id, ticketOfFields fields⟩

def executionForm :
    Form (Symbol × Float × Float × Timestamp × ExecutionKind × OrderId × Option OrderId) :=
  .both (.one (required "symbol" symbol))
    (.both (.one (required "value" amount))
      (.both (.one (required "quantity" amount))
        (.both (.one (required "date" integer))
          (.both (.one (required "typ" executionKind))
            (.both (.one (required "order_id" orderId))
              (.one (optional "order_id_ref" (nullable orderId) none)))))))

def readExecution : Reader (Execution Float) := fun t => do
  let (symbol, value, quantity, date, kind, order, reference) ← executionForm.read t
  return ⟨symbol, value, quantity, date, kind, order, reference⟩

end Wire

open Json (Value optionalMember)

def OrderId.toJson (id : OrderId) : Value :=
  .integer id.value.toNat

def SessionId.toJson (id : SessionId) : Value :=
  .integer id.value.toNat

def Symbol.toJson (symbol : Symbol) : Value :=
  .text symbol.name

namespace Ticket

def members (t : Ticket Float) : List (String × Value) :=
  [("order_type", .text t.kind.name), ("symbol", t.symbol.toJson), ("qty", .amount t.quantity)]
    ++ optionalMember "price" .amount t.price
    ++ optionalMember "order_id_ref" OrderId.toJson t.reference

def toJson (t : Ticket Float) : Value :=
  .object t.members

end Ticket

def Placement.toJson (p : Placement Float) : Value :=
  .object (("order_id", p.id.toJson) :: p.ticket.members)

def Execution.toJson (e : Execution Float) : Value :=
  .object ([("symbol", e.symbol.toJson), ("value", .amount e.value),
      ("quantity", .amount e.quantity), ("date", .integer e.date.toInt),
      ("typ", .text e.kind.name), ("order_id", e.order.toJson)]
    ++ optionalMember "order_id_ref" OrderId.toJson e.reference)

def Refusal.members : Refusal Float → List (String × Value)
  | .noPosition held => [("reason", .text "no_position"), ("held", .amount held)]
  | .exceedsPosition held requested =>
    [("reason", .text "exceeds_position"), ("held", .amount held), ("requested", .amount requested)]

def Rejection.toJson (r : Rejection Float) : Value :=
  .object (("order", r.order.toTicket.toJson) :: r.reason.members)

end Brokerage
