/-
# Events of a broker

Everything a broker does is entered in its journal, in the order in which it
happens. Each event also has a line for the log.

Key definitions: `Event`, `Event.logLine`.
-/
import Brokerage.Account
import Brokerage.Log

namespace Brokerage

inductive Event (α : Type) [Amount α] where
  | sessionStarted (now : Option Timestamp)
  | ordersSubmitted (orders : List (Order α))
  | orderRejected (rejection : Rejection α)
  /-- An execution was reconciled; `cash` is the balance after it. -/
  | resultApplied (execution : Execution α) (cash : α)
  | orderResting (id : OrderId) (order : Order α)
  | tickCompleted (now : Option Timestamp) (value : α)
  | sessionFinished

open Decimal (plain)

def Event.logLine (session : SessionId) : Event Float → LogLine
  | .sessionStarted now => ⟨.info, session.describe ++ " started at " ++ describeTime now⟩
  | .ordersSubmitted orders =>
    ⟨.debug, session.describe ++ " submitting " ++ toString orders.length ++ " orders"⟩
  | .orderRejected rejection => ⟨.warn, session.describe ++ " " ++ rejection.describe⟩
  | .resultApplied execution cash =>
    ⟨.debug, session.describe ++ " executed " ++ execution.describe ++ ", cash now " ++ plain cash⟩
  | .orderResting id order =>
    ⟨.debug, session.describe ++ " resting " ++ id.describe ++ ": " ++ order.describe⟩
  | .tickCompleted now value =>
    ⟨.debug, session.describe ++ "-" ++ describeTime now ++ " total value " ++ plain value⟩
  | .sessionFinished => ⟨.info, session.describe ++ " simulation finished"⟩

end Brokerage
