/-
# The service over HTTP

A client sends requests to the host of a service and decodes its answers. What
failed on the way may be sent again, as the retry policy says; opening a session
and asking for a step are never repeated, since each of them changes the session.

The answers of the host are given in advance: each request takes the next one,
and a request that finds none is left without an answer. The client keeps what it
sent and what it logged.

Key definitions: `Reply`, `Request`, `Client`, `Client.send`, `Client.connectTo`.
-/
import Brokerage.Http.Address
import Brokerage.Http.Status
import Brokerage.Log
import Brokerage.RetryPolicy
import Brokerage.Wire.Session

namespace Brokerage
namespace Http

/-- What comes back on a request. -/
inductive Reply where
  /-- The connection ends without an answer. -/
  | silence
  /-- `complete` says whether all of the announced body arrives. -/
  | answer (status : Nat) (body : String) (complete : Bool)
  deriving DecidableEq, Repr

inductive Method where
  | get
  | post
  deriving DecidableEq, Repr

structure Request where
  method : Method
  target : String
  body : String
  deriving DecidableEq, Repr

structure Client where
  base : String
  retry : RetryPolicy Float
  /-- The replies to come. -/
  replies : List Reply
  /-- The requests sent, the oldest first. -/
  requests : List Request
  logs : List LogLine

/-- How an attempt failed: there was nothing to send to, nothing came back, or an
answer that is no success. -/
inductive Failure where
  | noAddress
  | unsendable (address : String)
  | unanswered (address : String)
  | status (code : Nat) (body : String)
  deriving DecidableEq, Repr

/-- Another attempt may do better. -/
def Failure.transient : Failure → Bool
  | .noAddress => true
  | .unsendable _ => true
  | .unanswered _ => true
  | .status code _ => isTransient code

def Failure.reason : Failure → String
  | .noAddress => "request failed: builder error"
  | .unsendable address => "request failed: builder error for url (" ++ address ++ ")"
  | .unanswered address => "request failed: error sending request for url (" ++ address ++ ")"
  | .status code body =>
    "returned " ++ describeStatus code ++ if body.isEmpty then "" else ": " ++ body

/-- What an attempt gives: the body of a success, if it arrived whole, or a
failure. -/
def Reply.outcome (reply : Reply) (address : String) : Except Failure (Option String) :=
  match reply with
  | .silence => .error (.unanswered address)
  | .answer status body complete =>
    if !isFinal status then .error (.unanswered address)
    else
      let body : Option String :=
        if isBodiless status then some ""
        else if complete then some body
        else none
      if isSuccess status then .ok body else .error (.status status (body.getD ""))

def plural (attempts : Nat) : String :=
  toString attempts ++ " attempt(s)"

namespace Client

def log (c : Client) (level : LogLevel) (text : String) : Client :=
  { c with logs := c.logs ++ [⟨level, text⟩] }

/-- Sends a request and takes the next reply. -/
def exchange (c : Client) (request : Request) : Reply × Client :=
  let c := { c with requests := c.requests ++ [request] }
  match c.replies with
  | [] => (.silence, c)
  | reply :: replies => (reply, { c with replies := replies })

/-- Where a text leads, if requests can be sent there. -/
def destination (text : String) : Except Failure Address :=
  match Address.ofText? text with
  | none => .error .noAddress
  | some address =>
    if address.isSendable then .ok address else .error (.unsendable address.text)

/-- One attempt. A request without a destination is not sent. -/
def ask (c : Client) (destination : Except Failure Address) (method : Method) (body : String) :
    Except Failure (Option String) × Client :=
  match destination with
  | .error failure => (.error failure, c)
  | .ok address =>
    let (reply, c) := c.exchange ⟨method, address.target, body⟩
    (reply.outcome address.text, c)

/-- Attempts a request until it succeeds, fails for good, or no attempt is left.
`what` names the request in logs and errors. -/
def attempt (what : String) (destination : Except Failure Address) (method : Method)
    (body : String) (limit : Nat) : Nat → Client → Except ServiceFault (Option String) × Client
  | left, c =>
    let number := limit - left
    let c := c.log .debug (what ++ " attempt " ++ toString number ++ "/" ++ toString limit)
    match c.ask destination method body with
    | (.ok body, c) => (.ok body, c)
    | (.error failure, c) =>
      if !failure.transient then (.error (.protocol (what ++ ": " ++ failure.reason)), c)
      else match left with
        | 0 =>
          (.error (.transport (what ++ ": " ++ failure.reason ++ " after " ++ plural number)), c)
        | left + 1 =>
          let wait := c.retry.backoff number
          let c := c.log .warn
            (what ++ " failed (" ++ failure.reason ++ "), retrying in " ++ wait.describe)
          attempt what destination method body limit left c

/-- Sends a request to a path of the service. The body of the answer is there if it
arrived whole. -/
def send (c : Client) (path : String) (retry : Bool) (method : Method) (body : String) :
    Except ServiceFault (Option String) × Client :=
  let limit := if retry then max c.retry.maxAttempts 1 else 1
  attempt path (destination (c.base ++ path)) method body limit (limit - 1) c

/-- The message in a body. -/
def decode {β : Type} (path : String) (read : Wire.Reader β) (body : Option String) :
    Except ServiceFault β :=
  match body with
  | none =>
    .error (.transport (path ++ ": reading body failed: error decoding response body"))
  | some text =>
    match Wire.parse read text with
    | .ok b => .ok b
    | .error _ => .error (.protocol (path ++ ": failed to parse response"))

/-- Sends a request and decodes the answer. -/
def query {β : Type} (c : Client) (path : String) (retry : Bool) (method : Method) (body : String)
    (read : Wire.Reader β) : Except ServiceFault β × Client :=
  match c.send path retry method body with
  | (.error fault, c) => (.error fault, c)
  | (.ok answer, c) => (decode path read answer, c)

def sessionPath (session : SessionId) (name : String) : String :=
  "/backtest/" ++ toString session.value ++ "/" ++ name

def openSession (request : SessionRequest) (c : Client) :
    Except ServiceFault (Opening Float) × Client :=
  match request with
  | .dataset name => c.query ("/init/" ++ name) false .get "" Wire.readOpening
  | .range _ _ _ => c.query "/init" false .post request.toJson.render Wire.readOpening

/-- The body of the answer to a submission is of no account. -/
def submit (session : SessionId) (orders : List (Order Float)) (c : Client) :
    Except ServiceFault Unit × Client :=
  let path := sessionPath session "insert_orders"
  let c := c.log .debug ("submitting " ++ toString orders.length ++ " orders to " ++ path)
  match c.send path c.retry.retrySubmissions .post (submissionJson orders).render with
  | (.error fault, c) => (.error fault, c)
  | (.ok _, c) => (.ok (), c)

instance : Service Client Float where
  openSession := openSession
  submit := submit
  nextStep session c := c.query (sessionPath session "tick") false .get "" Wire.readStepReply
  sessionInfo session c := c.query (sessionPath session "info") true .get "" Wire.readInfo
  datasetSpan c := c.query "/dataset/info" true .get "" Wire.readSpan
  clock session c := c.query (sessionPath session "now") true .get "" Wire.readClock

/-- An address without the slashes at its end. -/
def trimSlashes (url : String) : String :=
  String.ofList (url.toList.reverse.dropWhile (· == '/')).reverse

/-- A client for the service at an address. An address of another scheme is handed
back. -/
def connectTo (url : String) (retry : RetryPolicy Float) (replies : List Reply) :
    Except String Client :=
  let base := trimSlashes url
  if base.startsWith "http://" || base.startsWith "https://" then
    .ok ⟨base, retry, replies, [], []⟩
  else .error base

end Client

def Method.name : Method → String
  | .get => "GET"
  | .post => "POST"

end Http
end Brokerage
