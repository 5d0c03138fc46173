/-
# The broker

A broker keeps the account of one session. `tick` sends the pending orders,
fetches the next step, reconciles its executions one by one, follows the orders
that came to rest, and then takes over the new market and values the account.

A reply that cannot be applied changes nothing. An execution or placement that
the account cannot follow is dropped and reported, and the rest of its step is
held: the next tick goes on with it and neither sends nor fetches.

Key definitions: `Broker`, `Broker.connect`, `Broker.insert`, `Broker.tick`,
`feed`.
-/
import Brokerage.Broker.Event
import Brokerage.Broker.Fault

namespace Brokerage

/-- Takes the items one by one until one fails; then the failure and the items
after it are given as well. -/
def feed {τ ι ε : Type} (take : τ → ι → Except ε τ) : τ → List ι → τ × Option (ε × List ι)
  | t, [] => (t, none)
  | t, i :: is =>
    match take t i with
    | .error e => (t, some (e, is))
    | .ok t => feed take t is

structure Broker (σ α : Type) [Amount α] where
  service : σ
  session : SessionId
  /-- The service has no further step. -/
  finished : Bool
  account : Account α
  quotes : Quotes α
  depths : Depths α
  /-- The time of the latest market taken over. -/
  now : Option Timestamp
  /-- Every reconciled execution, the oldest first. -/
  tradeLog : List (Execution α)
  /-- What came to rest in the latest step. -/
  insertedLastTick : List OrderId
  /-- One value per completed tick, the oldest first. -/
  values : List α
  /-- The rest of a step that stopped part way. -/
  held : Option (Step α)
  journal : List (Event α)

/-- What a broker is set up with. -/
structure Setup (α : Type) where
  cash : Option α
  request : Option SessionRequest
  deriving Repr

/-- What a tick did. -/
structure TickReport (α : Type) [Amount α] where
  submitted : Nat
  rejected : List (Rejection α)
  executed : List (Execution α)
  inserted : List OrderId
  now : Option Timestamp
  /-- The value entered; nothing when the session ended. -/
  value : Option α
  finished : Bool

namespace Broker

variable {σ α : Type} [Amount α]

def note (b : Broker σ α) (events : List (Event α)) : Broker σ α :=
  { b with journal := b.journal ++ events }

/-- The cash and the request of a setup that is complete and sensible. -/
def checkSetup (setup : Setup α) : Except (SetupFault α) (α × SessionRequest) :=
  match setup.cash with
  | none => .error .noCash
  | some cash =>
    if !Amount.isFinite cash || decide (cash < 0) then .error (.badCash cash)
    else match setup.request with
      | none => .error .noRequest
      | some request => .ok (cash, request)

/-- Opens a session. A failure comes with the service as it was left. -/
def connect [Service σ α] (setup : Setup α) (service : σ) :
    Except (BrokerFault α × σ) (Broker σ α) :=
  match checkSetup setup with
  | .error fault => .error (.setup fault, service)
  | .ok (cash, request) =>
    match Service.openSession request service with
    | (.error fault, service) => .error (.ofService fault [], service)
    | (.ok opening, service) =>
      let now := latestDate opening.quotes
      .ok {
        service := service
        session := opening.session
        finished := false
        account := Account.ofCash cash
        quotes := opening.quotes
        depths := opening.depths
        now := now
        tradeLog := []
        insertedLastTick := []
        values := []
        held := none
        journal := [.sessionStarted now] }

/-- Keeps an order for the next tick. -/
def insert (b : Broker σ α) (order : Order α) : Except (BrokerFault α) Unit × Broker σ α :=
  if b.finished then (.error (.finished .insertOrder), b)
  else (.ok (), { b with account.blotter := b.account.blotter.enqueue order })

/-- Reconciles one execution and logs it. -/
def takeExecution (b : Broker σ α) (e : Execution α) : Except (Discrepancy α) (Broker σ α) :=
  match b.account.reconcile e with
  | .error cause => .error cause
  | .ok account =>
    .ok (note { b with account := account, tradeLog := b.tradeLog ++ [e] }
      [.resultApplied e account.ledger.cash])

/-- Follows one order that came to rest. -/
def takePlacement (b : Broker σ α) (p : OrderId × Order α) :
    Except (Discrepancy α) (Broker σ α) :=
  match b.account.place p.1 p.2 with
  | .error cause => .error cause
  | .ok account =>
    .ok (note { b with account := account, insertedLastTick := b.insertedLastTick ++ [p.1] }
      [.orderResting p.1 p.2])

/-- Ends the session, or takes over the market of the step and values the
account. -/
def conclude (b : Broker σ α) (step : Step α) (report : TickReport α) :
    Except (BrokerFault α) (TickReport α) × Broker σ α :=
  if !step.hasNext then
    (.ok { report with now := b.now, finished := true },
      note { b with finished := true } [.sessionFinished])
  else
    let now := step.time <|> b.now
    let b := { b with quotes := step.quotes, depths := step.depths, now := now }
    match b.account.ledger.value b.quotes with
    | .error symbol => (.error (.staleQuote symbol), b)
    | .ok value =>
      (.ok { report with now := now, value := some value },
        note { b with values := b.values ++ [value] } [.tickCompleted now value])

/-- Applies a step: executions, then placements, then the market. When an item
fails, what comes after it is held. -/
def applyStep (b : Broker σ α) (step : Step α) (report : TickReport α) :
    Except (BrokerFault α) (TickReport α) × Broker σ α :=
  match feed takeExecution b step.executed with
  | (b, some (cause, rest)) =>
    (.error (.ofDiscrepancy cause), { b with held := some { step with executed := rest } })
  | (b, none) =>
    match feed takePlacement b step.inserted with
    | (b, some (cause, rest)) =>
      (.error (.ofDiscrepancy cause),
        { b with held := some { step with executed := [], inserted := rest } })
    | (b, none) =>
      b.conclude step
        { report with executed := step.executed, inserted := step.inserted.map (·.1) }

/-- Fetches the next step and applies it. -/
def fetch [Service σ α] (b : Broker σ α) (report : TickReport α) :
    Except (BrokerFault α) (TickReport α) × Broker σ α :=
  match Service.nextStep b.session b.service with
  | (.error fault, service) => (.error (.ofService fault []), { b with service := service })
  | (.ok reply, service) =>
    let b := { b with service := service }
    match reply.check with
    | .error defect => (.error (.protocol (.malformed defect)), b)
    | .ok step => applyStep { b with insertedLastTick := [] } step report

/-- The report of a tick that has done nothing yet. -/
def blankReport : TickReport α where
  submitted := 0
  rejected := []
  executed := []
  inserted := []
  now := none
  value := none
  finished := false

/-- Sends what the ledger does not object to, then fetches a step. -/
def exchange [Service σ α] (b : Broker σ α) :
    Except (BrokerFault α) (TickReport α) × Broker σ α :=
  let (flush, blotter) := b.account.blotter.flush b.account.ledger
  let b := note { b with account.blotter := blotter } (flush.rejected.map .orderRejected)
  let report := { blankReport with submitted := flush.accepted.length, rejected := flush.rejected }
  if flush.accepted.isEmpty then b.fetch report
  else
    let b := b.note [.ordersSubmitted flush.accepted]
    match Service.submit b.session flush.accepted b.service with
    | (.error fault, service) =>
      (.error (.ofService fault flush.accepted), { b with service := service })
    | (.ok (), service) => fetch { b with service := service } report

/-- Advances the session by one step, or finishes a step that was held. -/
def tick [Service σ α] (b : Broker σ α) : Except (BrokerFault α) (TickReport α) × Broker σ α :=
  if b.finished then (.error (.finished .tick), b)
  else match b.held with
    | some step => applyStep { b with held := none } step blankReport
    | none => b.exchange

/-- The value of the account at the current quotes. -/
def value (b : Broker σ α) : Except (BrokerFault α) α :=
  match b.account.ledger.value b.quotes with
  | .error symbol => .error (.staleQuote symbol)
  | .ok value => .ok value

/-- Puts a question to the service. -/
def ask {β : Type} (b : Broker σ α) (question : σ → Except ServiceFault β × σ) :
    Except (BrokerFault α) β × Broker σ α :=
  match question b.service with
  | (.error fault, service) => (.error (.ofService fault []), { b with service := service })
  | (.ok answer, service) => (.ok answer, { b with service := service })

def sessionInfo [Service σ α] (b : Broker σ α) : Except (BrokerFault α) SessionInfo × Broker σ α :=
  b.ask (Service.sessionInfo b.session)

def datasetSpan [Service σ α] (b : Broker σ α) : Except (BrokerFault α) DatasetSpan × Broker σ α :=
  b.ask Service.datasetSpan

/-- Where the service sees the session. -/
def remoteClock [Service σ α] (b : Broker σ α) : Except (BrokerFault α) Clock × Broker σ α :=
  b.ask (Service.clock b.session)

end Broker
end Brokerage
