/-
# Requests and answers of a session

`parse` takes a whole text: what follows the value is a fault, noticed last.

Key definitions: `readRequest`, `readOpening`, `readStepReply`, `readInfo`,
`readSpan`, `readClock`, `parse`.
-/
import Brokerage.Json.Read
import Brokerage.Wire.Snapshot
import Brokerage.Wire.Trade

namespace Brokerage
namespace Wire

/-- Arrays and objects of a value that is kept nest at most this deep. -/
def maxNesting : Nat := 127

def datasetForm : Form String :=
  .one (required "dataset" text)

def rangeForm : Form (Timestamp × Timestamp × UInt64) :=
  .both (.one (required "start_date" integer))
    (.both (.one (required "end_date" integer)) (.one (required "frequency" natural)))

/-- A request is kept as a value, then read as one for a dataset, or else as one
for a range. It is always written as an object. -/
def readRequest : Reader SessionRequest := fun t =>
  if !t.strict maxNesting then .error .unreadable
  else match t with
    | .object members closed =>
      match datasetForm.ofMembers members closed with
      | .ok name => .ok (.dataset name)
      | .error _ =>
        match rangeForm.ofMembers members closed with
        | .ok (first, last, frequency) => .ok (.range first last frequency)
        | .error _ => .error .noRequestForm
    | _ => .error .noRequestForm

/-- The number of the session goes by either of two names. -/
def openingForm : Form (SessionId × Quotes Float × Depths Float) :=
  .both (.one ⟨"backtest_id", some "session_id", sessionId, none⟩)
    (.both (.one (optional "bbo" readQuotes ∅)) (.one (optional "depth" readDepths ∅)))

def readOpening : Reader (Opening Float) := fun t => do
  let (session, quotes, depths) ← openingForm.read t
  return ⟨session, quotes, depths⟩

/-- An acknowledged order stands in an array inside the reply, three levels
down. -/
def stepForm :
    Form (Bool × List (Execution Float) × List (Placement Float) × Quotes Float × Depths Float
      × Option Timestamp) :=
  .both (.one (required "has_next" flag))
    (.both (.one (required "executed_orders" (list readExecution)))
      (.both (.one (required "inserted_orders" (list (readPlacement (maxNesting - 3)))))
        (.both (.one (required "bbo" readQuotes))
          (.both (.one (optional "depth" readDepths ∅))
            (.one (optional "now" (nullable integer) none))))))

def readStepReply : Reader (StepReply Float) := fun t => do
  let (hasNext, executed, inserted, quotes, depths, now) ← stepForm.read t
  return ⟨hasNext, executed, inserted, quotes, depths, now⟩

def readSubmission : Reader (List (Order Float)) :=
  (Form.one (required "orders" (list readOrder))).read

def infoForm : Form (String × Option String) :=
  .both (.one (required "version" text)) (.one (optional "dataset" (nullable text) none))

def readInfo : Reader SessionInfo := fun t => do
  let (version, dataset) ← infoForm.read t
  return ⟨version, dataset⟩

def spanForm : Form (Timestamp × Timestamp) :=
  .both (.one (required "start_date" integer)) (.one (required "end_date" integer))

def readSpan : Reader DatasetSpan := fun t => do
  let (first, last) ← spanForm.read t
  return ⟨first, last⟩

def clockForm : Form (Timestamp × Bool) :=
  .both (.one (required "now" integer)) (.one (required "has_next" flag))

def readClock : Reader Clock := fun t => do
  let (now, hasNext) ← clockForm.read t
  return ⟨now, hasNext⟩

/-- Reads a message from its text. -/
def parse {β : Type} (read : Reader β) (s : String) : Except Fault β := do
  let (tree, alone) := Json.read s
  let b ← read tree
  if alone then return b else .error .unreadable

end Wire

open Json (Value optionalMember)

def SessionRequest.toJson : SessionRequest → Value
  | .dataset name => .object [("dataset", .text name)]
  | .range first last frequency =>
    .object [("start_date", .integer first.toInt), ("end_date", .integer last.toInt),
      ("frequency", .integer frequency.toNat)]

def Opening.toJson (o : Opening Float) : Value :=
  .object [("backtest_id", o.session.toJson), ("bbo", tableJson Quote.toJson o.quotes),
    ("depth", tableJson Depth.toJson o.depths)]

def StepReply.toJson (r : StepReply Float) : Value :=
  .object ([("has_next", .bool r.hasNext),
      ("executed_orders", .array (r.executed.map Execution.toJson)),
      ("inserted_orders", .array (r.inserted.map Placement.toJson)),
      ("bbo", tableJson Quote.toJson r.quotes), ("depth", tableJson Depth.toJson r.depths)]
    ++ optionalMember "now" (fun t => .integer t.toInt) r.now)

def submissionJson (orders : List (Order Float)) : Value :=
  .object [("orders", .array (orders.map fun order => order.toTicket.toJson))]

def SessionInfo.toJson (info : SessionInfo) : Value :=
  .object [("version", .text info.version), ("dataset", .ofOption .text info.dataset)]

def DatasetSpan.toJson (span : DatasetSpan) : Value :=
  .object [("start_date", .integer span.first.toInt), ("end_date", .integer span.last.toInt)]

def Clock.toJson (clock : Clock) : Value :=
  .object [("now", .integer clock.now.toInt), ("has_next", .bool clock.hasNext)]

end Brokerage
