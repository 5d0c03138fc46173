/-
# Configuration

Where the service is, what session to open, the cash to start from, and how to
run. Settings are what a configuration file says; a `Config` has been checked.

Key definitions: `Settings`, `Settings.read?`, `Config`, `Config.check`,
`Config.ofToml`.
-/
import Brokerage.RetryPolicy
import Brokerage.Service
import Brokerage.Toml.Read
import Brokerage.Toml.Section

namespace Brokerage

open Toml (Section)

structure ServiceSettings where
  url : String
  timeoutSeconds : Nat
  maxAttempts : Nat
  backoffMilliseconds : Nat
  retrySubmissions : Bool
  deriving Repr

/-- Either a dataset or the three parts of a range. -/
structure SessionSettings where
  dataset : Option String
  startDate : Option Timestamp
  endDate : Option Timestamp
  frequency : Option UInt64
  deriving Repr

structure RunSettings where
  maxTicks : Option Nat
  maxTickRetries : Nat
  deriving Repr

structure LoggingSettings where
  directory : String
  auditFile : String
  deriving Repr

structure Settings where
  service : ServiceSettings
  session : SessionSettings
  initialCash : Float
  run : RunSettings
  logging : LoggingSettings
  deriving Repr

/-- Why settings cannot be used. -/
inductive ConfigFault where
  | emptyUrl
  | zeroTimeout
  | zeroAttempts
  | badCash
  | datasetAndRange
  | incompleteSession
  | reversedDates
  | zeroFrequency
  | zeroTicks
  deriving DecidableEq, Repr

/-- Why there is no configuration: the text cannot be read, or it says something
that cannot be used. -/
inductive ConfigError where
  | unreadable
  | invalid (fault : ConfigFault)
  deriving DecidableEq, Repr

/-- Settings that can be used, and the session that they ask for. -/
structure Config extends Settings where
  request : SessionRequest
  deriving Repr

/-! ### Reading -/

def readService (s : Section) : Option ServiceSettings := do
  let url ← s.required 0 "url" Toml.Value.asText
  let timeout ← s.withDefault 1 "timeout_secs" (Toml.Value.asNatural UInt64.size) 30
  let attempts ← s.withDefault 2 "max_attempts" (Toml.Value.asNatural UInt32.size) 3
  let backoff ← s.withDefault 3 "backoff_ms" (Toml.Value.asNatural UInt64.size) 100
  let retry ← s.withDefault 4 "retry_submissions" Toml.Value.asBool true
  return ⟨url, timeout, attempts, backoff, retry⟩

def asTimestamp (v : Toml.Value) : Option Timestamp :=
  v.asInteger.map Int.toInt64

def readSession (s : Section) : Option SessionSettings := do
  let dataset ← s.optional 0 "dataset" Toml.Value.asText
  let startDate ← s.optional 1 "start_date" asTimestamp
  let endDate ← s.optional 2 "end_date" asTimestamp
  let frequency ← s.optional 3 "frequency" (Toml.Value.asNatural UInt64.size)
  return ⟨dataset, startDate, endDate, frequency.map Nat.toUInt64⟩

def readRun (s : Section) : Option RunSettings := do
  let maxTicks ← s.optional 0 "max_ticks" (Toml.Value.asNatural UInt64.size)
  let retries ← s.withDefault 1 "max_tick_retries" (Toml.Value.asNatural UInt32.size) 1
  return ⟨maxTicks, retries⟩

def readLogging (s : Section) : Option LoggingSettings := do
  let directory ← s.withDefault 0 "dir" Toml.Value.asText "./logs"
  let file ← s.withDefault 1 "audit_file" Toml.Value.asText "audit.jsonl"
  return ⟨directory, file⟩

/-- The settings in the text of a configuration file. -/
def Settings.read? (s : String) : Option Settings := do
  let entries ← Toml.read? s
  let inside {β : Type} (read : Section → Option β) (v : Toml.Value) : Option β :=
    (Section.of? v).bind read
  let file := Section.named entries
  let service ← file.required 0 "service" (inside readService)
  let session ← file.required 1 "session" (inside readSession)
  let cash ← file.required 2 "account"
    (inside fun account => account.required 0 "initial_cash" Toml.Value.asAmount)
  let run ← file.withDefault 3 "run" (inside readRun) ⟨none, 1⟩
  let logging ← file.withDefault 4 "logging" (inside readLogging) ⟨"./logs", "audit.jsonl"⟩
  return ⟨service, session, cash, run, logging⟩

/-! ### Checking -/

/-- The session that the settings ask for. -/
def SessionSettings.request (s : SessionSettings) : Except ConfigFault SessionRequest :=
  match s.dataset, s.startDate, s.endDate, s.frequency with
  | some name, none, none, none => .ok (.dataset name)
  | none, some first, some last, some frequency => .ok (.range first last frequency)
  | some _, _, _, _ => .error .datasetAndRange
  | _, _, _, _ => .error .incompleteSession

def SessionRequest.fault? : SessionRequest → Option ConfigFault
  | .dataset _ => none
  | .range first last frequency =>
    if last < first then some .reversedDates
    else if frequency = 0 then some .zeroFrequency
    else none

namespace Config

/-- The settings in use, or the first thing that is wrong with them. -/
def check (s : Settings) : Except ConfigFault Config :=
  if s.service.url.isEmpty then .error .emptyUrl
  else if s.service.timeoutSeconds = 0 then .error .zeroTimeout
  else if s.service.maxAttempts = 0 then .error .zeroAttempts
  else if !s.initialCash.isFinite || decide (s.initialCash < 0) then .error .badCash
  else match s.session.request with
    | .error fault => .error fault
    | .ok request =>
      match request.fault? with
      | some fault => .error fault
      | none => if s.run.maxTicks = some 0 then .error .zeroTicks else .ok ⟨s, request⟩

def timeout (c : Config) : Duration :=
  .ofWholeSeconds c.service.timeoutSeconds

/-- The first wait is as configured, and the longest at least that. -/
def retryPolicy (c : Config) : RetryPolicy Float :=
  let initial := Duration.ofMilliseconds c.service.backoffMilliseconds
  let standard : RetryPolicy Float := .standard
  { (standard.withMaxAttempts c.service.maxAttempts).withBackoff initial
      (initial.max standard.maxBackoff) with
    retrySubmissions := c.service.retrySubmissions }

/-- A path below a directory; an absolute path stands for itself. -/
def joinPath (directory path : String) : String :=
  if path.startsWith "/" || directory.isEmpty then path
  else if directory.endsWith "/" then directory ++ path
  else directory ++ "/" ++ path

def auditPath (c : Config) : String :=
  joinPath c.logging.directory c.logging.auditFile

/-- The configuration in the text of its file. -/
def ofToml (s : String) : Except ConfigError Config :=
  match Settings.read? s with
  | none => .error .unreadable
  | some settings =>
    match check settings with
    | .error fault => .error (.invalid fault)
    | .ok config => .ok config

end Config

def ConfigFault.message : ConfigFault → String
  | .emptyUrl => "service url must not be empty"
  | .zeroTimeout => "timeout_secs must be > 0"
  | .zeroAttempts => "max_attempts must be >= 1"
  | .badCash => "initial_cash must be >= 0"
  | .datasetAndRange => "session takes either a dataset or a date range, not both"
  | .incompleteSession => "session needs a dataset or start_date, end_date and frequency"
  | .reversedDates => "end_date must not precede start_date"
  | .zeroFrequency => "frequency must be > 0"
  | .zeroTicks => "max_ticks must be > 0 when set"

/-- Nothing is said about what the reader did not like. -/
def ConfigError.message : ConfigError → String
  | .unreadable => "failed to parse config"
  | .invalid fault => "config error: " ++ fault.message

end Brokerage
