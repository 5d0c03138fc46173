/-
# Replaying a plan

Before each tick the orders planned for it are inserted. A tick that got no
answer is tried again, with the orders handed back inserted anew; any other
failure ends the run. The run notes what an audit trail records of it.

A service may go on for ever, so a run is given a number of rounds. It is
`outcome = none` when they did not suffice, and that alone depends on them.

Key definitions: `RunOptions`, `RunSummary`, `AuditEntry`, `Run`, `replay`.
-/
import Brokerage.Broker.Basic
import Brokerage.Decimal.Places
import Brokerage.Plan

namespace Brokerage

structure RunOptions where
  planFile : String
  /-- Stop after this many ticks. -/
  maxTicks : Option Nat
  /-- How often a tick that got no answer is tried again. -/
  maxTickRetries : Nat
  deriving Repr

structure RunSummary (α : Type) where
  session : SessionId
  ticks : Nat
  submitted : Nat
  rejected : Nat
  results : Nat
  finalCash : α
  finalValue : Option α
  finished : Bool
  deriving Repr

/-- What an audit trail records of a run. -/
inductive AuditEntry (α : Type) [Amount α] where
  | runStarted (planFile : String) (cash : α)
  | orderRejected (step : Nat) (rejection : Rejection α)
  | orderResult (step : Nat) (execution : Execution α)
  | tickCompleted (step : Nat) (report : TickReport α)
  | sessionFinished (step : Nat)
  | runCompleted (summary : RunSummary α)
  | runAborted (step : Nat) (fault : BrokerFault α)

/-- What a run tells its operator on the way. -/
inductive RunNote where
  | stopping (ticks : Nat)
  | resubmitting (reason : String) (orders retry limit : Nat)
  deriving DecidableEq, Repr

/-- A run so far: the broker, and what was recorded and told. -/
structure Run (σ α : Type) [Amount α] where
  broker : Broker σ α
  entries : List (AuditEntry α)
  notes : List RunNote

/-- A run with its outcome; without one if the rounds did not suffice. -/
structure Replayed (σ α : Type) [Amount α] extends Run σ α where
  outcome : Option (Except (BrokerFault α) (RunSummary α))

section

variable {σ α : Type} [Amount α]

def Run.record (run : Run σ α) (entries : List (AuditEntry α)) : Run σ α :=
  { run with entries := run.entries ++ entries }

/-- Inserts orders one by one until one is not taken. -/
def insertAll (b : Broker σ α) : List (Order α) → Except (BrokerFault α) Unit × Broker σ α
  | [] => (.ok (), b)
  | order :: orders =>
    match b.insert order with
    | (.error fault, b) => (.error fault, b)
    | (.ok (), b) => insertAll b orders

/-- A tick that is tried again while it gets no answer and retries are left. -/
def tickRetrying [Service σ α] (limit : Nat) :
    Nat → Broker σ α → Except (BrokerFault α) (TickReport α) × Broker σ α × List RunNote
  | left, b =>
    match b.tick with
    | (.error (.transport reason unsent), b) =>
      match left with
      | 0 => (.error (.transport reason unsent), b, [])
      | left + 1 =>
        let note := RunNote.resubmitting reason unsent.length (limit - left) limit
        match insertAll b unsent with
        | (.error fault, b) => (.error fault, b, [note])
        | (.ok (), b) =>
          let (outcome, b, notes) := tickRetrying limit left b
          (outcome, b, note :: notes)
    | (outcome, b) => (outcome, b, [])

/-- What is recorded of a completed tick: rejections, executions, then the tick
itself or the end of the session. -/
def tickEntries (step : Nat) (report : TickReport α) : List (AuditEntry α) :=
  report.rejected.map (.orderRejected step) ++ report.executed.map (.orderResult step)
    ++ [if report.finished then .sessionFinished step else .tickCompleted step report]

/-- What is recorded of a failed tick: the executions it applied, then the
failure. -/
def abortEntries (step : Nat) (applied : List (Execution α)) (fault : BrokerFault α) :
    List (AuditEntry α) :=
  applied.map (.orderResult step) ++ [.runAborted step fault]

/-- Counts a completed tick. -/
def RunSummary.count (s : RunSummary α) (report : TickReport α) : RunSummary α :=
  { s with
    ticks := s.ticks + 1
    submitted := s.submitted + report.submitted
    rejected := s.rejected + report.rejected.length
    results := s.results + report.executed.length
    finalValue := report.value <|> s.finalValue }

/-- Ends a run that was not cut short. -/
def Run.complete (run : Run σ α) (summary : RunSummary α) : Replayed σ α :=
  let summary := { summary with
    finalCash := run.broker.account.ledger.cash
    finished := run.broker.finished }
  { run.record [.runCompleted summary] with outcome := some (.ok summary) }

/-- The rounds of a run; the ticks of the summary count them. -/
def Run.advance [Service σ α] (plan : Plan α) (options : RunOptions) :
    Nat → RunSummary α → Run σ α → Replayed σ α
  | 0, _, run => { run with outcome := none }
  | rounds + 1, summary, run =>
    let step := summary.ticks
    if run.broker.finished then run.complete summary
    else if options.maxTicks.any (· ≤ step) then
      Run.complete { run with notes := run.notes ++ [.stopping step] } summary
    else
      match insertAll run.broker (plan.ordersFor step) with
      | (.error fault, broker) => { run with broker := broker, outcome := some (.error fault) }
      | (.ok (), broker) =>
        let logged := broker.tradeLog.length
        let retries := options.maxTickRetries
        let (outcome, broker, notes) := tickRetrying retries retries broker
        let run : Run σ α := { run with broker := broker, notes := run.notes ++ notes }
        match outcome with
        | .error fault =>
          { run.record (abortEntries step (broker.tradeLog.drop logged) fault) with
            outcome := some (.error fault) }
        | .ok report =>
          Run.advance plan options rounds (summary.count report)
            (run.record (tickEntries step report))

/-- Replays a plan on an open broker until the session ends or the ticks are used
up. -/
def replay [Service σ α] (plan : Plan α) (options : RunOptions) (rounds : Nat)
    (broker : Broker σ α) : Replayed σ α :=
  let cash := broker.account.ledger.cash
  Run.advance plan options rounds ⟨broker.session, 0, 0, 0, 0, cash, none, false⟩
    ⟨broker, [.runStarted options.planFile cash], []⟩

end

def RunNote.logLine : RunNote → LogLine
  | .stopping ticks => ⟨.info, "stopping after " ++ toString ticks ++ " ticks"⟩
  | .resubmitting reason orders retry limit =>
    ⟨.warn, "tick failed (" ++ reason ++ "), resubmitting " ++ toString orders ++ " orders (retry "
      ++ toString retry ++ "/" ++ toString limit ++ ")"⟩

open Decimal (twoPlaces)

def RunSummary.describe (s : RunSummary Float) : String :=
  "Session " ++ toString s.session.value ++ ": " ++ toString s.ticks ++ " ticks, "
    ++ toString s.submitted ++ " submitted, " ++ toString s.rejected ++ " rejected, "
    ++ toString s.results ++ " results; cash " ++ twoPlaces s.finalCash ++ ", value "
    ++ (match s.finalValue with
      | none => "-"
      | some v => twoPlaces v)
    ++ (if s.finished then " (finished)" else "")

end Brokerage
