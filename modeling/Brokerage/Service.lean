/-
# The simulation service

The service owns the market: it opens sessions, takes orders and advances the
session step by step. What it answers is not to be trusted, so the orders it
speaks of are tickets.

Key definitions: `SessionRequest`, `Opening`, `StepReply`, `ServiceFault`,
`Service`.
-/
import Brokerage.Execution
import Brokerage.Market
import Brokerage.Order

namespace Brokerage

/-- What a session replays: a named dataset, or a range of dates at a fixed
number of seconds per step. -/
inductive SessionRequest where
  | dataset (name : String)
  | range (first last : Timestamp) (frequency : UInt64)
  deriving DecidableEq, Repr

/-- A new session and the market at its start. -/
structure Opening (α : Type) where
  session : SessionId
  quotes : Quotes α
  depths : Depths α
  deriving Repr

/-- An order that the service says is resting, under the number it gave it. -/
structure Placement (α : Type) where
  id : OrderId
  ticket : Ticket α
  deriving Repr, BEq

/-- What the service says of one step. `now` is the time of the new snapshot,
where it is told. -/
structure StepReply (α : Type) where
  hasNext : Bool
  executed : List (Execution α)
  inserted : List (Placement α)
  quotes : Quotes α
  depths : Depths α
  now : Option Timestamp
  deriving Repr

structure SessionInfo where
  version : String
  dataset : Option String
  deriving DecidableEq, Repr

/-- The time span of the data behind a service. -/
structure DatasetSpan where
  first : Timestamp
  last : Timestamp
  deriving DecidableEq, Repr

/-- Where a session stands. -/
structure Clock where
  now : Timestamp
  hasNext : Bool
  deriving DecidableEq, Repr

/-- Why a service call failed: no answer came, or an answer that is of no use. -/
inductive ServiceFault where
  | transport (reason : String)
  | protocol (reason : String)
  deriving DecidableEq, Repr

/-- A service as a machine: each call gives its outcome and the next state. -/
class Service (σ : Type) (α : outParam Type) [Amount α] where
  openSession : SessionRequest → σ → Except ServiceFault (Opening α) × σ
  /-- Submits a batch. Its effects show in the next step. -/
  submit : SessionId → List (Order α) → σ → Except ServiceFault Unit × σ
  /-- Advances the session by one step. -/
  nextStep : SessionId → σ → Except ServiceFault (StepReply α) × σ
  sessionInfo : SessionId → σ → Except ServiceFault SessionInfo × σ
  datasetSpan : σ → Except ServiceFault DatasetSpan × σ
  clock : SessionId → σ → Except ServiceFault Clock × σ

/-- The last reply of a session. -/
def StepReply.last {α : Type} : StepReply α where
  hasNext := false
  executed := []
  inserted := []
  quotes := ∅
  depths := ∅
  now := none

/-- The time of the snapshot: as told, or else the greatest quote date. -/
def StepReply.time {α : Type} (r : StepReply α) : Option Timestamp :=
  r.now <|> latestDate r.quotes

def ServiceFault.message : ServiceFault → String
  | .transport reason => "transport error: " ++ reason
  | .protocol reason => "protocol error: " ++ reason

end Brokerage
