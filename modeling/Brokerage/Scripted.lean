/-
# A scripted service

A service without a network: it answers from a script, fails when told to, and
records what was submitted to it. Once the script is used up the session has no
further step.

Key definitions: `Scenario`, `Scenario.service`, `ScriptedService`.
-/
import Brokerage.Service

namespace Brokerage

/-- A batch of orders as it was submitted. -/
structure Batch (α : Type) [Amount α] where
  session : SessionId
  orders : List (Order α)

/-- What a scripted service starts from. -/
structure Scenario (α : Type) where
  session : SessionId
  start : Timestamp
  quotes : Quotes α
  depths : Depths α
  span : DatasetSpan

structure ScriptedService (α : Type) [Amount α] where
  session : SessionId
  quotes : Quotes α
  depths : Depths α
  span : DatasetSpan
  /-- The replies to come. -/
  script : List (StepReply α)
  /-- The accepted requests for a session, the oldest first. -/
  requests : List SessionRequest
  /-- The accepted batches, the oldest first. -/
  batches : List (Batch α)
  served : Nat
  now : Timestamp
  hasNext : Bool
  /-- The next request for a session fails like this. -/
  openingFault : Option ServiceFault
  /-- The next submissions fail like this, one by one. -/
  submitFaults : List ServiceFault
  /-- The next step requests fail like this, one by one. -/
  stepFaults : List ServiceFault

namespace Scenario

variable {α : Type} [Amount α]

def blank : Scenario α where
  session := ⟨0⟩
  start := 0
  quotes := ∅
  depths := ∅
  span := ⟨0, 0⟩

/-- The data of the service starts with its session. -/
def startingAt (s : Scenario α) (start : Timestamp) : Scenario α :=
  { s with start := start, span := { s.span with first := start } }

def withQuote (s : Scenario α) (symbol : Symbol) (bid ask : α) : Scenario α :=
  { s with quotes := s.quotes.insert symbol ⟨bid, ask, 0, 0, s.start⟩ }

/-- The service of a scenario. All quotes carry the time of the start. -/
def service (s : Scenario α) : ScriptedService α where
  session := s.session
  quotes := s.quotes.map fun q => { q with date := s.start }
  depths := s.depths
  span := s.span
  script := []
  requests := []
  batches := []
  served := 0
  now := s.start
  hasNext := true
  openingFault := none
  submitFaults := []
  stepFaults := []

end Scenario

namespace ScriptedService

variable {α : Type} [Amount α]

def pushStep (s : ScriptedService α) (reply : StepReply α) : ScriptedService α :=
  { s with script := s.script ++ [reply] }

def failOpening (s : ScriptedService α) (fault : ServiceFault) : ScriptedService α :=
  { s with openingFault := some fault }

def failSubmit (s : ScriptedService α) (fault : ServiceFault) : ScriptedService α :=
  { s with submitFaults := s.submitFaults ++ [fault] }

def failStep (s : ScriptedService α) (fault : ServiceFault) : ScriptedService α :=
  { s with stepFaults := s.stepFaults ++ [fault] }

/-- All orders of the accepted batches. -/
def orders (s : ScriptedService α) : List (Order α) :=
  s.batches.flatMap (·.orders)

/-- Answers only for the session that it opened. -/
def forSession {β : Type} (session : SessionId) (s : ScriptedService α)
    (answer : Except ServiceFault β × ScriptedService α) :
    Except ServiceFault β × ScriptedService α :=
  if session = s.session then answer
  else (.error (.protocol ("unknown session " ++ session.describe)), s)

def openSession (request : SessionRequest) (s : ScriptedService α) :
    Except ServiceFault (Opening α) × ScriptedService α :=
  match s.openingFault with
  | some fault => (.error fault, { s with openingFault := none })
  | none => (.ok ⟨s.session, s.quotes, s.depths⟩, { s with requests := s.requests ++ [request] })

def submit (session : SessionId) (orders : List (Order α)) (s : ScriptedService α) :
    Except ServiceFault Unit × ScriptedService α :=
  forSession session s <|
    match s.submitFaults with
    | fault :: faults => (.error fault, { s with submitFaults := faults })
    | [] => (.ok (), { s with batches := s.batches ++ [⟨session, orders⟩] })

/-- The reply to come and the script after it. -/
def nextReply (s : ScriptedService α) : StepReply α × List (StepReply α) :=
  match s.script with
  | [] => (.last, [])
  | reply :: script => (reply, script)

def nextStep (session : SessionId) (s : ScriptedService α) :
    Except ServiceFault (StepReply α) × ScriptedService α :=
  forSession session s <|
    match s.stepFaults with
    | fault :: faults => (.error fault, { s with stepFaults := faults })
    | [] =>
      let (reply, script) := s.nextReply
      (.ok reply, { s with
        script := script
        served := s.served + 1
        hasNext := reply.hasNext
        now := reply.time.getD s.now })

/-- The dataset of the latest request, if it asked for one. -/
def dataset (s : ScriptedService α) : Option String :=
  match s.requests.getLast? with
  | some (.dataset name) => some name
  | _ => none

instance : Service (ScriptedService α) α where
  openSession := openSession
  submit := submit
  nextStep := nextStep
  sessionInfo session s := forSession session s (.ok ⟨"mock", s.dataset⟩, s)
  datasetSpan s := (.ok s.span, s)
  clock session s := forSession session s (.ok ⟨s.now, s.hasNext⟩, s)

end ScriptedService
end Brokerage
