/-
# The lines of an audit trail

The trail of a run is one line for each entry, added to what the file held
(`AuditLog.writeRun_text`). A line is an object: its first members say which event it
is, and sorting the fields behind them by name loses none (`Json.lookup_sortKeys`). So
the lines of executions can be told from the others, and each tells the execution that
it was written for (`AuditLog.lines_told`).

Key definitions: `FileTree.text`, `AuditLog.members`, `AuditLog.lines`,
`AuditEntry.result?`, `Execution.told`, `tellsResult`, `resultTold`.
Key theorems: `Json.lookup_sortKeys`, `AuditLog.writeRun_text`,
`AuditLog.lines_told`.
-/
import Brokerage.Audit
import Brokerage.Proofs.Table

namespace Brokerage

open Json (Value)

/-! ### Sorted members -/

namespace Json

theorem lookup_insertSorted (name other : String) (v : Value) (ms : List (String × Value)) :
    Table.lookup other (insertSorted name v ms) =
      if name = other then some v else Table.lookup other ms := by
  induction ms with
  | nil => rfl
  | cons m ms ih =>
    obtain ⟨key, w⟩ := m
    unfold insertSorted
    by_cases hbefore : name < key
    · rw [if_pos hbefore]
      rfl
    · rw [if_neg hbefore]
      by_cases hafter : key < name
      · rw [if_pos hafter, Table.lookup, ih, Table.lookup]
        by_cases hkey : key = other
        · have hname : name ≠ other := fun h =>
            String.lt_irrefl key (by rw [h, ← hkey] at hafter; exact hafter)
          rw [if_pos hkey, if_neg hname, if_pos hkey]
        · rw [if_neg hkey, if_neg hkey]
      · have hkey : key = name :=
          String.le_antisymm (String.not_lt.mp hbefore) (String.not_lt.mp hafter)
        rw [if_neg hafter, Table.lookup, Table.lookup, hkey]
        split <;> rfl

/-- **Sorting members by name loses none.** -/
theorem lookup_sortKeys (name : String) (ms : List (String × Value)) :
    Table.lookup name (sortKeysMembers ms) = (Table.lookup name ms).map Value.sortKeys := by
  induction ms with
  | nil =>
    rw [sortKeysMembers]
    rfl
  | cons m ms ih =>
    obtain ⟨key, v⟩ := m
    rw [sortKeysMembers, lookup_insertSorted, ih, Table.lookup]
    split <;> rfl

end Json

namespace Table

theorem lookup_append {κ β : Type} [DecidableEq κ] (key : κ) (fs : List (κ × β)) :
    ∀ es : List (κ × β), lookup key (es ++ fs) = (lookup key es).or (lookup key fs)
  | [] => rfl
  | (k, b) :: es => by
    rw [List.cons_append, lookup, lookup, lookup_append key fs es]
    split <;> rfl

end Table

/-! ### What is written -/

/-- The text of a file; none if there is no file. -/
def FileTree.text (t : FileTree) (place : Place) : String :=
  (t.files.get? place).getD ""

theorem FileTree.append_text (t : FileTree) (place : Place) (content : String) :
    (t.append place content).text place = t.text place ++ content := by
  unfold text append
  rw [Table.get?_insert, if_pos rfl]
  rfl

namespace AuditLog

/-- The members of the line of a record. -/
def members (log : AuditLog) (stamp : String) (r : AuditRecord) : List (String × Value) :=
  log.header stamp r.event ++
    match r.fields.sortKeys with
    | .object fields => fields
    | _ => []

/-- The log once a line is written. -/
def next (log : AuditLog) : AuditLog :=
  { log with written := log.written + 1, unwritten := "" }

/-- The lines that a log writes for some entries. -/
def lines (log : AuditLog) (stamp : String) :
    List (AuditEntry Float) → List (List (String × Value))
  | [] => []
  | entry :: entries => log.members stamp entry.record :: log.next.lines stamp entries

/-- How lines stand in the file. -/
def textOf (lines : List (List (String × Value))) : String :=
  String.join (lines.map fun line => (Value.object line).render ++ "\n")

theorem textOf_cons (line : List (String × Value)) (rest : List (List (String × Value))) :
    textOf (line :: rest) = (Value.object line).render ++ "\n" ++ textOf rest := by
  unfold textOf
  rw [List.map_cons, String.join_cons]

/-- The fields of every entry are an object. -/
theorem record_fields (entry : AuditEntry Float) :
    ∃ fields, entry.record.fields = .object fields := by
  cases entry <;> exact ⟨_, rfl⟩

/-- An entry is written as one line. -/
theorem write_entry (log : AuditLog) (stamp : String) (entry : AuditEntry Float)
    (files : FileTree) :
    (log.write stamp entry.record files).2 = (log.next, files.append log.place
      (log.unwritten ++ (Value.object (log.members stamp entry.record)).render ++ "\n")) := by
  obtain ⟨fields, hfields⟩ := record_fields entry
  have hline : log.line? stamp entry.record =
      some (Value.object (log.members stamp entry.record)).render := by
    unfold line? members
    rw [hfields, Value.sortKeys]
  unfold write
  rw [hline]
  rfl

/-- Writes one entry of a run. -/
def enter (stamp : String) (state : AuditLog × FileTree) (entry : AuditEntry Float) :
    AuditLog × FileTree :=
  (state.1.write stamp entry.record state.2).2

/-- What one entry after the other adds to the file. -/
theorem foldl_enter_text (stamp : String) : ∀ (entries : List (AuditEntry Float)) (log : AuditLog)
    (files : FileTree), log.unwritten = "" →
      (entries.foldl (enter stamp) (log, files)).2.text log.place =
        files.text log.place ++ textOf (log.lines stamp entries)
  | [], _, _, _ => String.append_empty.symm
  | entry :: entries, log, files, h => by
    rw [List.foldl_cons, enter, write_entry]
    refine (foldl_enter_text stamp entries log.next _ rfl).trans ?_
    show (files.append log.place _).text log.place ++ _ = _
    rw [FileTree.append_text, h, String.empty_append, lines, textOf_cons, String.append_assoc]

/-- **The entries of a run are added line by line,** behind what was left of a line
before them. -/
theorem writeRun_text (stamp : String) (session : SessionId) (files : FileTree) (log : AuditLog)
    (first : AuditEntry Float) (entries : List (AuditEntry Float)) :
    let opened : AuditLog := { log with session := some session }
    (log.writeRun stamp session (first :: entries) files).2.text log.place =
      files.text log.place ++ log.unwritten ++ textOf (opened.lines stamp (first :: entries)) := by
  show (((first :: entries).foldl (enter stamp) ({ log with session := some session }, files)).2.text
    log.place) = _
  rw [List.foldl_cons, enter, write_entry]
  refine (foldl_enter_text stamp entries _ _ rfl).trans ?_
  show (files.append log.place _).text log.place ++ _ = _
  rw [FileTree.append_text, lines, textOf_cons]
  simp only [String.append_assoc]

end AuditLog

/-! ### Lines of executions -/

/-- The execution that an entry records. -/
def AuditEntry.result? {α : Type} [Amount α] : AuditEntry α → Option (Execution α)
  | .orderResult _ e => some e
  | _ => none

/-- What a trail tells of an execution: its order, kind, symbol, quantity, value and
date. -/
def Execution.told (e : Execution Float) : List (Option Value) :=
  [some e.order.toJson, some (.text e.kind.label), some e.symbol.toJson, some (.amount e.quantity),
    some (.amount e.value), some (.integer e.date.toInt)]

/-- The line is that of an execution. -/
def tellsResult (line : List (String × Value)) : Bool :=
  match Table.lookup "event" line with
  | some (.text event) => event == "order_result"
  | _ => false

/-- What a line tells of an execution. -/
def resultTold (line : List (String × Value)) : List (Option Value) :=
  ["order_id", "kind", "symbol", "quantity", "value", "date"].map fun name =>
    Table.lookup name line

namespace AuditLog

theorem lookup_event (log : AuditLog) (stamp : String) (r : AuditRecord) :
    Table.lookup "event" (log.members stamp r) = some (.text r.event) := rfl

/-- The members that every line begins with do not hide a field. -/
theorem lookup_field (log : AuditLog) (stamp : String) {name : String} {r : AuditRecord}
    {fields : List (String × Value)} (hr : r.fields = .object fields)
    (hname : name ∉ ["seq", "event", "ts", "session"]) :
    Table.lookup name (log.members stamp r) =
      (Table.lookup name fields).map Value.sortKeys := by
  have hheader : Table.lookup name (log.header stamp r.event) = none := by
    simp only [List.mem_cons, List.not_mem_nil, or_false, not_or] at hname
    unfold header
    cases log.session <;> simp [Table.lookup, Json.optionalMember, Ne.symm hname.1,
      Ne.symm hname.2.1, Ne.symm hname.2.2.1, Ne.symm hname.2.2.2]
  unfold members
  rw [hr, Value.sortKeys, Table.lookup_append, hheader, Option.none_or, Json.lookup_sortKeys]

theorem tellsResult_entry (log : AuditLog) (stamp : String) (entry : AuditEntry Float) :
    tellsResult (log.members stamp entry.record) = entry.result?.isSome := by
  unfold tellsResult
  rw [lookup_event]
  cases entry <;> rfl

theorem resultTold_entry (log : AuditLog) (stamp : String) (step : Nat) (e : Execution Float) :
    resultTold (log.members stamp (AuditEntry.orderResult step e).record) = e.told := by
  have htold : ∀ (name : String) (v : Value), name ∉ ["seq", "event", "ts", "session"] →
      Table.lookup name [("step", .integer step), ("order_id", e.order.toJson),
        ("kind", .text e.kind.label), ("symbol", e.symbol.toJson), ("quantity", .amount e.quantity),
        ("value", .amount e.value), ("date", .integer e.date.toInt)] = some v → v.sortKeys = v →
      Table.lookup name (log.members stamp (AuditEntry.orderResult step e).record) = some v := by
    intro name v hname hfield hv
    rw [lookup_field log stamp rfl hname, hfield, Option.map_some, hv]
  unfold resultTold Execution.told
  simp only [List.map_cons, List.map_nil]
  rw [htold "order_id" _ (by decide) rfl rfl, htold "kind" _ (by decide) rfl rfl,
    htold "symbol" _ (by decide) rfl rfl, htold "quantity" _ (by decide) rfl rfl,
    htold "value" _ (by decide) rfl rfl, htold "date" _ (by decide) rfl rfl]

/-- **The lines of executions** tell, in order and one for one, the executions that the
entries record. -/
theorem lines_told (stamp : String) : ∀ (entries : List (AuditEntry Float)) (log : AuditLog),
    ((log.lines stamp entries).filter tellsResult).map resultTold =
      (entries.filterMap AuditEntry.result?).map Execution.told
  | [], _ => rfl
  | entry :: entries, log => by
    have ih := lines_told stamp entries log.next
    have htells := log.tellsResult_entry stamp entry
    rw [lines]
    cases entry with
    | orderResult step e =>
      rw [List.filter_cons_of_pos htells, List.map_cons, resultTold_entry, ih]
      rfl
    | _ =>
      rw [List.filter_cons_of_neg (by rw [htells]; exact Bool.false_ne_true), ih]
      rfl

end AuditLog
end Brokerage
