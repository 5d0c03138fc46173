/-
# Accounts over exact numbers

Over the rational numbers nothing is rounded, and the rules of the account can be
computed inside a proof. The sample session trades one symbol. Its only step
reports a buy, a buy that the cash does not cover and a sell, and then the same
number twice for a resting order.

Key definitions: `sampleOrder`, `sampleSell`, `sampleReply`, `sampleQuietReply`,
`sampleStep`, `sampleService`, `sampleSetup`, `sampleBroker`.
-/
import Brokerage.Broker.Basic
import Brokerage.Scripted

namespace Brokerage

instance : Amount Rat where
  zero := 0
  one := 1
  ltDecidable := inferInstance
  leDecidable := inferInstance
  isFinite _ := true
  tolerance := mkRat 1 1000000000
  count n := n

deriving instance DecidableEq for Execution
deriving instance DecidableEq for Ticket
deriving instance DecidableEq for Order

def sampleSymbol : Symbol := ⟨"ABC"⟩

def sampleScenario : Scenario Rat :=
  (Scenario.blank.startingAt 100).withQuote sampleSymbol 10 11

def sampleTicket : Ticket Rat :=
  ⟨.limitBuy, sampleSymbol, 5, some 9, none⟩

def sampleOrder : Order Rat :=
  ⟨sampleTicket, rfl⟩

/-- A sell, which a ledger without holdings refuses. -/
def sampleSell : Order Rat :=
  ⟨⟨.limitSell, sampleSymbol, 5, some 12, none⟩, rfl⟩

/-- A buy of 40, a buy for more than there is, a sell of 10, and two placements
under one number. -/
def sampleReply : StepReply Rat where
  hasNext := true
  executed := [
    .bought sampleSymbol 400 40 101 ⟨1⟩,
    .bought sampleSymbol 2000 200 101 ⟨2⟩,
    .sold sampleSymbol 100 10 101 ⟨3⟩]
  inserted := [⟨⟨7⟩, sampleTicket⟩, ⟨⟨7⟩, sampleTicket⟩]
  quotes := sampleScenario.quotes
  depths := ∅
  now := some 101

/-- The market of the reply alone: nothing is executed and nothing comes to rest. -/
def sampleQuietReply : StepReply Rat :=
  { sampleReply with executed := [], inserted := [] }

/-- The step that the reply tells. -/
def sampleStep : Step Rat where
  hasNext := true
  executed := sampleReply.executed
  inserted := [(⟨7⟩, sampleOrder), (⟨7⟩, sampleOrder)]
  quotes := sampleScenario.quotes
  depths := ∅
  time := some 101

theorem check_sample : sampleReply.check = .ok sampleStep := rfl

def sampleService : ScriptedService Rat :=
  sampleScenario.service.pushStep sampleReply

def sampleSetup : Setup Rat where
  cash := some 1000
  request := some (.dataset "sample")

/-- The session as it is opened. -/
def sampleBroker : Broker (ScriptedService Rat) Rat where
  service := { sampleService with requests := [.dataset "sample"] }
  session := ⟨0⟩
  finished := false
  account := .ofCash 1000
  quotes := sampleScenario.quotes
  depths := ∅
  now := some 100
  tradeLog := []
  insertedLastTick := []
  values := []
  held := none
  journal := [.sessionStarted (some 100)]

theorem connect_sample : Broker.connect sampleSetup sampleService = .ok sampleBroker := rfl

end Brokerage
