/-
# The command line

`run PLAN [--dry-run]` replays a plan, `dataset` shows the span of the data of
the service, `status` opens a session and shows where it stands. A program run is
a function of its arguments, the files it finds and the replies of the service;
it gives an exit code, what it printed, and the files and requests it made.

Key definitions: `Command`, `Invocation.parse`, `World`, `Outcome`, `run`.
-/
import Brokerage.Http.Client
import Brokerage.RunFault

namespace Brokerage
namespace Cli

open Http (Client Reply)

inductive Command where
  | run (plan : String) (dryRun : Bool)
  | dataset
  | status
  deriving DecidableEq, Repr

inductive Invocation where
  | version
  | command (config : String) (command : Command)
  /-- The arguments make no sense. -/
  | misuse
  deriving DecidableEq, Repr

/-! ### Arguments -/

/-- The arguments of `run` so far; `plain` holds once flags are no longer looked
for. -/
structure RunArguments where
  plan : Option String
  dryRun : Bool
  plain : Bool

/-- Takes one argument of `run`; the plan has a name and each is given once. -/
def RunArguments.take (a : RunArguments) (argument : String) : Option RunArguments :=
  if !a.plain && argument == "--" then some { a with plain := true }
  else if !a.plain && argument == "--dry-run" then
    if a.dryRun then none else some { a with dryRun := true }
  else if argument.isEmpty || a.plan.isSome then none
  else if !a.plain && argument.startsWith "-" && argument != "-" then none
  else some { a with plan := some argument }

def parseRun (arguments : List String) : Option Command := do
  let a ← arguments.foldlM RunArguments.take ⟨none, false, false⟩
  let plan ← a.plan
  return .run plan a.dryRun

/-- A command that takes no arguments. -/
def parseBare (command : Command) (arguments : List String) : Option Command :=
  if arguments.all (· == "--") && arguments.length ≤ 1 then some command else none

def parseCommand : List String → Option Command
  | "run" :: arguments => parseRun arguments
  | "dataset" :: arguments => parseBare .dataset arguments
  | "status" :: arguments => parseBare .status arguments
  | _ => none

def defaultConfig : String := "config.toml"

/-- Can this be the value of an option that is written apart from it? -/
def isValue (argument : String) : Bool :=
  !argument.isEmpty && (!argument.startsWith "-" || argument == "-")

/-- The configuration file, named once at most, stands before the command. -/
def parseFrom (config : Option String) : List String → Invocation
  | "--version" :: _ => .version
  | "--config" :: path :: arguments =>
    if config.isSome || !isValue path then .misuse else parseFrom (some path) arguments
  | argument :: arguments =>
    if argument.startsWith "-V" then .version
    else if argument.startsWith "--config=" then
      let path := (argument.drop 9).toString
      if config.isSome || path.isEmpty then .misuse else parseFrom (some path) arguments
    else match parseCommand (argument :: arguments) with
      | some command => .command (config.getD defaultConfig) command
      | none => .misuse
  | [] => .misuse

def Invocation.parse (arguments : List String) : Invocation :=
  parseFrom none arguments

/-! ### Running -/

/-- What a program run finds. -/
structure World where
  files : FileTree
  /-- What the service will reply. -/
  replies : List Reply
  /-- The time written on audit lines. -/
  stamp : String

/-- What a program run leaves behind. -/
structure Outcome where
  exitCode : Nat
  stdout : String
  stderr : String
  requests : List Http.Request
  files : FileTree

/-- A program run so far. -/
structure Progress where
  stdout : String
  requests : List Http.Request
  files : FileTree

def Progress.print (p : Progress) (text : String) : Progress :=
  { p with stdout := p.stdout ++ text }

def Progress.asked (p : Progress) (client : Client) : Progress :=
  { p with requests := client.requests }

/-- Ends a program run; a fault is told on the error channel. -/
def Progress.outcome (p : Progress) : Except RunFault Unit → Outcome
  | .ok () => ⟨0, p.stdout, "", p.requests, p.files⟩
  | .error fault =>
    ⟨fault.exitCode, p.stdout, "Error: " ++ fault.message ++ "\n", p.requests, p.files⟩

def connectClient (config : Config) (w : World) : Except RunFault Client :=
  (Client.connectTo config.service.url config.retryPolicy w.replies).mapError .address

def setup (config : Config) : Setup Float :=
  ⟨some config.initialCash, some config.request⟩

/-- A session makes no more ticks than the service has replies. -/
def rounds (w : World) : Nat :=
  w.replies.length + 2

/-- Replays a plan and prints what came of it. -/
def replayPlan (config : Config) (planFile : String) (plan : Plan Float) (w : World)
    (p : Progress) : Except RunFault Unit × Progress :=
  match connectClient config w with
  | .error fault => (.error fault, p)
  | .ok client =>
    match Broker.connect (setup config) client with
    | .error (fault, client) => (.error (.broker fault), p.asked client)
    | .ok broker =>
      match AuditLog.openAt config.auditPath p.files with
      | (.error fault, files) =>
        (.error (.audit (.file fault)), { p.asked broker.service with files := files })
      | (.ok log, files) =>
        let options : RunOptions := ⟨planFile, config.run.maxTicks, config.run.maxTickRetries⟩
        let done := replay plan options (rounds w) broker
        let (_, files) := log.writeRun w.stamp broker.session done.entries files
        let p := { p.asked done.broker.service with files := files }
        match done.outcome with
        | some (.ok summary) => (.ok (), p.print (summary.describe ++ "\n"))
        | some (.error fault) => (.error (.broker fault), p)
        | none => (.ok (), p)

/-- Opens a session and prints where it stands. -/
def showStatus (config : Config) (w : World) (p : Progress) : Except RunFault Unit × Progress :=
  let p := p.print ("Connecting to " ++ config.service.url ++ "... ")
  match connectClient config w with
  | .error fault => (.error fault, p)
  | .ok client =>
    match Broker.connect (setup config) client with
    | .error (fault, client) => (.error (.broker fault), p.asked client)
    | .ok broker =>
      let p := p.print "OK\n"
      match broker.sessionInfo with
      | (.error fault, broker) => (.error (.broker fault), p.asked broker.service)
      | (.ok info, broker) =>
        match broker.remoteClock with
        | (.error fault, broker) => (.error (.broker fault), p.asked broker.service)
        | (.ok clock, broker) =>
          (.ok (), (p.asked broker.service).print
            ("Session " ++ broker.session.describe ++ " (service " ++ info.version ++ ", dataset "
              ++ info.dataset.getD "-" ++ "): now " ++ toString clock.now ++ ", "
              ++ (if clock.hasNext then "running" else "finished") ++ "\n"))

/-- Prints the span of the data of the service. -/
def showDataset (config : Config) (w : World) (p : Progress) : Except RunFault Unit × Progress :=
  match connectClient config w with
  | .error fault => (.error fault, p)
  | .ok client =>
    match Service.datasetSpan client with
    | (.error fault, client) => (.error (.broker (.ofService fault [])), p.asked client)
    | (.ok span, client) =>
      (.ok (), (p.asked client).print
        ("Dataset: " ++ toString span.first ++ " .. " ++ toString span.last ++ "\n"))

def loadConfig (path : String) (files : FileTree) : Except RunFault Config :=
  match files.read path with
  | .error fault => .error (.configFile path fault)
  | .ok text => (Config.ofToml text).mapError .config

def loadPlan (path : String) (files : FileTree) : Except RunFault (Plan Float) :=
  match files.read path with
  | .error fault => .error (.planFile path fault)
  | .ok text => (Plan.ofJson text).mapError .plan

/-- A file that cannot be loaded ends the run before anything is done. -/
def refuse (what : String) (fault : RunFault) (w : World) : Outcome :=
  ⟨1, "", "Error loading " ++ what ++ ": " ++ fault.message ++ "\n", [], w.files⟩

def perform (config : Config) (command : Command) (w : World) : Outcome :=
  let start : Progress := ⟨"", [], w.files⟩
  let finish (done : Except RunFault Unit × Progress) : Outcome := done.2.outcome done.1
  match command with
  | .run planFile dryRun =>
    match loadPlan planFile w.files with
    | .error fault => refuse "plan" fault w
    | .ok plan =>
      if dryRun then
        (start.print (plan.describe ++ "\n[DRY RUN] No session opened.\n")).outcome (.ok ())
      else finish (replayPlan config planFile plan w start)
  | .dataset => finish (showDataset config w start)
  | .status => finish (showStatus config w start)

def usage : String :=
  "usage: tickbroker [--config FILE] (run PLAN [--dry-run] | dataset | status)\n"

/-- A program run with its arguments. -/
def run (arguments : List String) (w : World) : Outcome :=
  match Invocation.parse arguments with
  | .version => ⟨0, "tickbroker 0.1.0\n", "", [], w.files⟩
  | .misuse => ⟨2, "", usage, [], w.files⟩
  | .command configFile command =>
    match loadConfig configFile w.files with
    | .error fault => refuse "config" fault w
    | .ok config => perform config command w

end Cli
end Brokerage
