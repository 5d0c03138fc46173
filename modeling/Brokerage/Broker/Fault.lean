/-
# What can go wrong with a broker

Key definitions: `BrokerFault`, `BrokerFault.retryable`, `BrokerFault.message`.
-/
import Brokerage.Account
import Brokerage.Step

namespace Brokerage

/-- Why a broker cannot be set up. -/
inductive SetupFault (α : Type) where
  | noCash
  | badCash (cash : α)
  | noRequest
  deriving Repr

/-- A call that a finished session does not take. -/
inductive LateCall where
  | insertOrder
  | tick
  deriving DecidableEq, Repr

/-- An answer of the service that is of no use. -/
inductive Disorder (α : Type) where
  /-- The service refused, or its answer could not be read. -/
  | refused (reason : String)
  | malformed (defect : StepDefect α)
  deriving Repr

inductive BrokerFault (α : Type) [Amount α] where
  | badOrder (fault : OrderFault α)
  | setup (fault : SetupFault α)
  | insolvent (cause : Insolvency α)
  | staleQuote (symbol : Symbol)
  /-- No answer came. `unsent` are the orders taken from the blotter whose
  submission was not confirmed. -/
  | transport (reason : String) (unsent : List (Order α))
  | protocol (cause : Disorder α)
  | desync (cause : Desync)
  | finished (call : LateCall)

section

variable {α : Type} [Amount α]

/-- A failed call that had `orders` to submit. -/
def BrokerFault.ofService (fault : ServiceFault) (orders : List (Order α)) : BrokerFault α :=
  match fault with
  | .transport reason => .transport reason orders
  | .protocol reason => .protocol (.refused reason)

def BrokerFault.ofDiscrepancy : Discrepancy α → BrokerFault α
  | .insolvent cause => .insolvent cause
  | .desync cause => .desync cause

/-- Another tick can make progress: nothing has changed but that the pending
orders were taken out. -/
def BrokerFault.retryable : BrokerFault α → Bool
  | .transport _ _ | .protocol _ => true
  | _ => false

end

open Decimal (plain)

def SetupFault.message : SetupFault Float → String
  | .noCash => "broker needs initial cash"
  | .badCash cash => "initial cash must be a non-negative amount, got " ++ plain cash
  | .noRequest => "broker needs a dataset or date range"

def LateCall.message : LateCall → String
  | .insertOrder => "insert_order called on a finished session"
  | .tick => "tick called on a finished session"

def Disorder.message : Disorder Float → String
  | .refused reason => reason
  | .malformed defect => defect.message

def BrokerFault.message : BrokerFault Float → String
  | .badOrder fault => "invalid order: " ++ fault.message
  | .setup fault => "invalid broker configuration: " ++ fault.message
  | .insolvent cause =>
    "insolvent: " ++ cause.symbol.name ++ " fill of " ++ plain cause.value ++ " against cash "
      ++ plain cause.cash
  | .staleQuote symbol => "no quote for held symbol " ++ symbol.name
  | .transport reason _ => "transport error: " ++ reason
  | .protocol cause => "protocol error: " ++ cause.message
  | .desync cause => "lifecycle inconsistency for " ++ cause.order.describe ++ ": " ++ cause.detail
  | .finished call => "invalid operation: " ++ call.message

end Brokerage
