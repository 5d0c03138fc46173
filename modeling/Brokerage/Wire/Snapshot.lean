/-
# Quotes and depth in exchanged messages

Key definitions: `readQuote`, `readLevel`, `readDepth`, `Quote.toJson`,
`Depth.toJson`.
-/
import Brokerage.Json.Value
import Brokerage.Market
import Brokerage.Wire.Form

namespace Brokerage
namespace Wire

/-- The date of a quote may go by the name `timestamp`. -/
def quoteForm : Form (Float × Float × Float × Float × Timestamp) :=
  .both (.one (required "bid" amount))
    (.both (.one (required "ask" amount))
      (.both (.one (required "bid_volume" amount))
        (.both (.one (required "ask_volume" amount))
          (.one ⟨"date", some "timestamp", integer, none⟩))))

def readQuote : Reader (Quote Float) := fun t => do
  let (bid, ask, bidVolume, askVolume, date) ← quoteForm.read t
  return ⟨bid, ask, bidVolume, askVolume, date⟩

def levelForm : Form (Float × Float) :=
  .both (.one (required "price" amount)) (.one (required "size" amount))

def readLevel : Reader (Level Float) := fun t => do
  let (price, size) ← levelForm.read t
  return ⟨price, size⟩

/-- A side that is not given has no levels. -/
def depthForm : Form (List (Level Float) × List (Level Float)) :=
  .both (.one (optional "bids" (list readLevel) [])) (.one (optional "asks" (list readLevel) []))

def readDepth : Reader (Depth Float) := fun t => do
  let (bids, asks) ← depthForm.read t
  return ⟨bids, asks⟩

def readQuotes : Reader (Quotes Float) :=
  table readQuote

def readDepths : Reader (Depths Float) :=
  table readDepth

end Wire

open Json (Value)

def Quote.toJson (q : Quote Float) : Value :=
  .object [("bid", .amount q.bid), ("ask", .amount q.ask), ("bid_volume", .amount q.bidVolume),
    ("ask_volume", .amount q.askVolume), ("date", .integer q.date.toInt)]

def Level.toJson (l : Level Float) : Value :=
  .object [("price", .amount l.price), ("size", .amount l.size)]

def Depth.toJson (d : Depth Float) : Value :=
  .object [("bids", .array (d.bids.map Level.toJson)), ("asks", .array (d.asks.map Level.toJson))]

/-- A table by symbol, as an object. -/
def tableJson {β : Type} (f : β → Value) (t : Table Symbol β) : Value :=
  .object (t.entries.map fun e => (e.1.name, f e.2))

end Brokerage
