/-
# Orders

A ticket holds the fields of an order as somebody filled them in. An order is a
ticket without a fault: its symbol has a name, its quantity is positive (a cancel
may have none), a price stands exactly on limit orders, and a reference exactly
on cancels and modifies.

Key definitions: `OrderKind`, `Ticket`, `Ticket.fault?`, `Order`,
`Order.ofTicket`.
-/
import Brokerage.Amount
import Brokerage.Identity
import Brokerage.Decimal.Layout

namespace Brokerage

/-- What an order asks for. -/
inductive OrderKind where
  | marketBuy
  | marketSell
  | limitBuy
  | limitSell
  | cancel
  | modify
  deriving DecidableEq, Repr

namespace OrderKind

def all : List OrderKind :=
  [.marketBuy, .marketSell, .limitBuy, .limitSell, .cancel, .modify]

def name : OrderKind → String
  | .marketBuy => "MarketBuy"
  | .marketSell => "MarketSell"
  | .limitBuy => "LimitBuy"
  | .limitSell => "LimitSell"
  | .cancel => "Cancel"
  | .modify => "Modify"

def ofName? (s : String) : Option OrderKind :=
  all.find? fun kind => kind.name == s

def isLimit : OrderKind → Bool
  | .limitBuy | .limitSell => true
  | _ => false

def isMarket : OrderKind → Bool
  | .marketBuy | .marketSell => true
  | _ => false

def isSell : OrderKind → Bool
  | .marketSell | .limitSell => true
  | _ => false

def isBuy : OrderKind → Bool
  | .marketBuy | .limitBuy => true
  | _ => false

/-- Buys and sells, as opposed to instructions about other orders. -/
def isTransaction (kind : OrderKind) : Bool :=
  kind.isBuy || kind.isSell

/-- Cancel and modify act on another order. -/
def requiresReference : OrderKind → Bool
  | .cancel | .modify => true
  | _ => false

end OrderKind

/-- The fields of an order, not yet checked. -/
structure Ticket (α : Type) where
  kind : OrderKind
  symbol : Symbol
  quantity : α
  price : Option α
  reference : Option OrderId
  deriving BEq, Repr

/-- The two amounts on a ticket. -/
inductive TicketField where
  | quantity
  | price
  deriving DecidableEq, Repr

/-- What can be wrong with a ticket. -/
inductive OrderFault (α : Type) where
  | emptySymbol
  | nonPositiveQuantity (kind : OrderKind) (quantity : α)
  | notFinite (kind : OrderKind) (field : TicketField)
  | negativeCancelQuantity (quantity : α)
  | unexpectedPrice (kind : OrderKind)
  | missingPrice (kind : OrderKind)
  | nonPositivePrice (price : α)
  | missingReference (kind : OrderKind)
  | unexpectedReference (kind : OrderKind)
  deriving Repr

namespace Ticket

variable {α : Type} [Amount α]

def symbolFault? (t : Ticket α) : Option (OrderFault α) :=
  if t.symbol.name.isEmpty then some .emptySymbol else none

def quantityFault? (t : Ticket α) : Option (OrderFault α) :=
  if !Amount.isFinite t.quantity then some (.notFinite t.kind .quantity)
  else if t.kind = .cancel then
    if t.quantity < 0 then some (.negativeCancelQuantity t.quantity) else none
  else if t.quantity ≤ 0 then some (.nonPositiveQuantity t.kind t.quantity)
  else none

def priceFault? (t : Ticket α) : Option (OrderFault α) :=
  match t.price with
  | none => if t.kind.isLimit then some (.missingPrice t.kind) else none
  | some p =>
    if !t.kind.isLimit then some (.unexpectedPrice t.kind)
    else if !Amount.isFinite p then some (.notFinite t.kind .price)
    else if p ≤ 0 then some (.nonPositivePrice p)
    else none

def referenceFault? (t : Ticket α) : Option (OrderFault α) :=
  match t.reference with
  | none => if t.kind.requiresReference then some (.missingReference t.kind) else none
  | some _ => if t.kind.requiresReference then none else some (.unexpectedReference t.kind)

/-- The first fault of a ticket: symbol, quantity, price and reference are looked
at in this order. -/
def fault? (t : Ticket α) : Option (OrderFault α) :=
  t.symbolFault? <|> t.quantityFault? <|> t.priceFault? <|> t.referenceFault?

end Ticket

/-- A ticket without a fault. -/
structure Order (α : Type) [Amount α] extends Ticket α where
  sound : toTicket.fault? = none

namespace Order

variable {α : Type} [Amount α]

instance [BEq α] : BEq (Order α) where
  beq a b := a.toTicket == b.toTicket

/-- The order of a ticket, or its first fault. -/
def ofTicket (t : Ticket α) : Except (OrderFault α) (Order α) :=
  match h : t.fault? with
  | some fault => .error fault
  | none => .ok ⟨t, h⟩

def marketBuy (symbol : Symbol) (quantity : α) : Except (OrderFault α) (Order α) :=
  ofTicket ⟨.marketBuy, symbol, quantity, none, none⟩

def marketSell (symbol : Symbol) (quantity : α) : Except (OrderFault α) (Order α) :=
  ofTicket ⟨.marketSell, symbol, quantity, none, none⟩

def limitBuy (symbol : Symbol) (quantity price : α) : Except (OrderFault α) (Order α) :=
  ofTicket ⟨.limitBuy, symbol, quantity, some price, none⟩

def limitSell (symbol : Symbol) (quantity price : α) : Except (OrderFault α) (Order α) :=
  ofTicket ⟨.limitSell, symbol, quantity, some price, none⟩

/-- Asks for the resting order `target` to be withdrawn. -/
def cancel (symbol : Symbol) (target : OrderId) : Except (OrderFault α) (Order α) :=
  ofTicket ⟨.cancel, symbol, 0, none, some target⟩

/-- Asks for the quantity of the resting order `target` to be changed. -/
def modify (symbol : Symbol) (target : OrderId) (quantity : α) :
    Except (OrderFault α) (Order α) :=
  ofTicket ⟨.modify, symbol, quantity, none, some target⟩

end Order

open Decimal (plain)

def TicketField.name : TicketField → String
  | .quantity => "quantity"
  | .price => "price"

def OrderFault.message : OrderFault Float → String
  | .emptySymbol => "symbol must not be empty"
  | .nonPositiveQuantity kind q =>
    kind.name ++ " quantity must be greater than zero, got " ++ plain q
  | .notFinite kind field => kind.name ++ " " ++ field.name ++ " must be finite"
  | .negativeCancelQuantity q => "cancel quantity must not be negative, got " ++ plain q
  | .unexpectedPrice kind => kind.name ++ " order must not carry a price"
  | .missingPrice kind => kind.name ++ " order requires a price"
  | .nonPositivePrice p => "limit price must be greater than zero, got " ++ plain p
  | .missingReference kind => kind.name ++ " order requires a reference order id"
  | .unexpectedReference kind => kind.name ++ " order must not carry a reference order id"

/-- Kind, symbol and quantity, then the price and the order referred to. -/
def Ticket.describe (t : Ticket Float) : String :=
  t.kind.name ++ " " ++ t.symbol.name ++ " " ++ plain t.quantity
    ++ (match t.price with
      | none => ""
      | some p => " @ " ++ plain p)
    ++ (match t.reference with
      | none => ""
      | some id => " -> " ++ id.describe)

end Brokerage
