/-
# The audit trail

A file of lines, each a JSON object: a number that counts the lines written
through the log, the event, a time stamp, the session, and the fields of the
event sorted by name. A log only ever adds to its file.

Key definitions: `AuditRecord`, `AuditEntry.record`, `AuditLog`, `AuditLog.openAt`,
`AuditLog.write`.
-/
import Brokerage.FileTree
import Brokerage.Replay

namespace Brokerage

open Json (Value)

/-- An event and its fields. -/
structure AuditRecord where
  event : String
  fields : Value
  deriving Repr

/-- The record of a run that stopped because of an error. -/
def AuditRecord.aborted (step : Nat) (error : String) : AuditRecord :=
  ⟨"run_aborted", .object [("step", .integer step), ("error", .text error)]⟩

def RunSummary.toJson (s : RunSummary Float) : Value :=
  .object [("session", s.session.toJson), ("ticks", .integer s.ticks),
    ("submitted", .integer s.submitted), ("rejected", .integer s.rejected),
    ("results", .integer s.results), ("final_cash", .amount s.finalCash),
    ("final_value", .ofOption .amount s.finalValue), ("finished", .bool s.finished)]

def AuditEntry.record : AuditEntry Float → AuditRecord
  | .runStarted planFile cash =>
    ⟨"run_started", .object [("plan_file", .text planFile), ("initial_cash", .amount cash)]⟩
  | .orderRejected step rejection =>
    ⟨"order_rejected", .object (("order", rejection.order.toTicket.toJson)
      :: rejection.reason.members ++ [("step", .integer step)])⟩
  | .orderResult step e =>
    ⟨"order_result", .object [("step", .integer step), ("order_id", e.order.toJson),
      ("kind", .text e.kind.label), ("symbol", e.symbol.toJson), ("quantity", .amount e.quantity),
      ("value", .amount e.value), ("date", .integer e.date.toInt)]⟩
  | .tickCompleted step report =>
    ⟨"tick_completed", .object [("step", .integer step),
      ("now", .ofOption (fun t => .integer t.toInt) report.now),
      ("submitted", .integer report.submitted),
      ("inserted", .array (report.inserted.map OrderId.toJson)),
      ("value", .ofOption .amount report.value)]⟩
  | .sessionFinished step => ⟨"session_finished", .object [("step", .integer step)]⟩
  | .runCompleted summary => ⟨"run_completed", summary.toJson⟩
  | .runAborted step fault => .aborted step fault.message

/-- Why a line is not written. -/
inductive AuditFault where
  | file (fault : FileFault)
  /-- The fields of a record are no object. -/
  | noFields
  deriving DecidableEq, Repr

structure AuditLog where
  place : Place
  session : Option SessionId
  /-- The lines written. -/
  written : Nat
  /-- The beginnings of lines that were given up; they go ahead of the next. -/
  unwritten : String
  deriving Repr

namespace AuditLog

/-- Opens the file at a path, making it and its directories if need be. The
directories stay even where the file cannot be opened. -/
def openAt (path : String) (files : FileTree) : Except FileFault AuditLog × FileTree :=
  match files.makeDirectories (Route.ofPath path).above with
  | (.error fault, files) => (.error fault, files)
  | (.ok (), files) =>
    match files.touch path with
    | .error fault => (.error fault, files)
    | .ok (place, files) => (.ok ⟨place, none, 0, ""⟩, files)

/-- The members that every line begins with. -/
def header (log : AuditLog) (stamp : String) (event : String) : List (String × Value) :=
  [("seq", .integer log.written), ("event", .text event), ("ts", .text stamp)]
    ++ Json.optionalMember "session" SessionId.toJson log.session

/-- The line of a record, if its fields are an object or absent. -/
def line? (log : AuditLog) (stamp : String) (r : AuditRecord) : Option String :=
  match r.fields.sortKeys with
  | .object fields => some (Value.object (log.header stamp r.event ++ fields)).render
  | .null => some (Value.object (log.header stamp r.event)).render
  | _ => none

/-- How far the line of a record gets that has no fields. -/
def beginning (log : AuditLog) (stamp : String) (r : AuditRecord) : String :=
  "\x7b" ++ ",".intercalate (Json.renderMembers (log.header stamp r.event))

def write (log : AuditLog) (stamp : String) (r : AuditRecord) (files : FileTree) :
    Except AuditFault Unit × AuditLog × FileTree :=
  match log.line? stamp r with
  | some line =>
    (.ok (), { log with written := log.written + 1, unwritten := "" },
      files.append log.place (log.unwritten ++ line ++ "\n"))
  | none =>
    (.error .noFields, { log with unwritten := log.unwritten ++ log.beginning stamp r }, files)

/-- Writes what is left. -/
def close (log : AuditLog) (files : FileTree) : FileTree :=
  if log.unwritten.isEmpty then files else files.append log.place log.unwritten

/-- Writes the entries of a run; from its start on, every line carries the
session. -/
def writeRun (log : AuditLog) (stamp : String) (session : SessionId)
    (entries : List (AuditEntry Float)) (files : FileTree) : AuditLog × FileTree :=
  entries.foldl (fun (log, files) entry => (log.write stamp entry.record files).2)
    ({ log with session := some session }, files)

end AuditLog

def AuditFault.message : AuditFault → String
  | .file fault => fault.message
  | .noFields => "can only flatten structs and maps"

end Brokerage
