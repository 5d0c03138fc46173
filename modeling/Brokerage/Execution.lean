/-
# Executions

What the service reports about orders: fills, which move cash and holdings, and
confirmations of cancels and modifies, which do not.

Key definitions: `ExecutionKind`, `Execution`, `Execution.signedQuantity`,
`Execution.averagePrice`.
-/
import Brokerage.Amount
import Brokerage.Identity
import Brokerage.Decimal.Layout

namespace Brokerage

inductive ExecutionKind where
  | buy
  | sell
  | cancel
  | modify
  deriving DecidableEq, Repr

namespace ExecutionKind

def all : List ExecutionKind :=
  [.buy, .sell, .cancel, .modify]

/-- The name in exchanged messages. -/
def name : ExecutionKind → String
  | .buy => "Buy"
  | .sell => "Sell"
  | .cancel => "Cancel"
  | .modify => "Modify"

/-- The name in logs and error messages. -/
def label : ExecutionKind → String
  | .buy => "BUY"
  | .sell => "SELL"
  | .cancel => "CANCEL"
  | .modify => "MODIFY"

def ofName? (s : String) : Option ExecutionKind :=
  all.find? fun kind => kind.name == s

def isFill : ExecutionKind → Bool
  | .buy | .sell => true
  | .cancel | .modify => false

end ExecutionKind

/-- One report about the order `order`. `value` is the total value traded;
`reference` is the order that a cancel or modify acted on. -/
structure Execution (α : Type) where
  symbol : Symbol
  value : α
  quantity : α
  date : Timestamp
  kind : ExecutionKind
  order : OrderId
  reference : Option OrderId
  deriving BEq, Repr

namespace Execution

variable {α : Type} [Amount α]

def bought (symbol : Symbol) (value quantity : α) (date : Timestamp) (order : OrderId) :
    Execution α :=
  ⟨symbol, value, quantity, date, .buy, order, none⟩

def sold (symbol : Symbol) (value quantity : α) (date : Timestamp) (order : OrderId) :
    Execution α :=
  ⟨symbol, value, quantity, date, .sell, order, none⟩

/-- The instruction `order` withdrew `target`. -/
def cancelled (symbol : Symbol) (date : Timestamp) (order target : OrderId) : Execution α :=
  ⟨symbol, 0, 0, date, .cancel, order, some target⟩

/-- The instruction `order` changed what remains of `target` by `change`. -/
def modified (symbol : Symbol) (change : α) (date : Timestamp) (order target : OrderId) :
    Execution α :=
  ⟨symbol, 0, change, date, .modify, order, some target⟩

/-- What a fill adds to the position: a sell takes away. -/
def signedQuantity (e : Execution α) : Option α :=
  match e.kind with
  | .buy => some e.quantity
  | .sell => some (-e.quantity)
  | .cancel | .modify => none

/-- Value by quantity, for a fill of some quantity. -/
def averagePrice (e : Execution α) : Option α :=
  if e.kind.isFill && !(e.quantity ≤ 0 && 0 ≤ e.quantity) then some (e.value / e.quantity)
  else none

end Execution

open Decimal (plain)

def Execution.describe (e : Execution Float) : String :=
  e.kind.label ++ " " ++ e.order.describe ++ " - " ++ plain e.quantity ++ "/" ++ plain e.value
    ++ " " ++ e.symbol.name

end Brokerage
