/-
# The shape of an audit trail

In the file every entry of a replay is one line, written by the log as it stands after
the lines before (`AuditLog.lines_split`): the lines are numbered through, each carries
the session, and each names the event and the step of its entry. Which entries there are is
told by the outcomes of the ticks (`Broker.replay_names`), and what is known of the entries
can be read off the file (`Broker.trail_shape`).

Key definitions: `eventOf`.
Key theorems: `Json.mem_sortKeysMembers`, `AuditLog.lines_split`,
`AuditLog.lookup_inStep`, `AuditLog.session_of_mem`, `Broker.session_of_completed`,
`Broker.replay_names`, `Broker.trail_shape`.
-/
import Brokerage.Proofs.Results
import Brokerage.Proofs.RunRecord

namespace Brokerage

open Json (Value)

/-- The event that a line names. -/
def eventOf (line : List (String × Value)) : String :=
  match Table.lookup "event" line with
  | some (.text event) => event
  | _ => ""

namespace Json

theorem mem_insertSorted {name : String} {v : Value} {member : String × Value} :
    ∀ {ms : List (String × Value)}, member ∈ insertSorted name v ms →
      member = (name, v) ∨ member ∈ ms
  | [], h => .inl (List.mem_singleton.mp h)
  | (other, w) :: ms, h => by
    unfold insertSorted at h
    split at h
    · exact List.mem_cons.mp h
    · split at h
      · rcases List.mem_cons.mp h with rfl | h
        · exact .inr List.mem_cons_self
        · exact (mem_insertSorted h).imp_right (List.mem_cons_of_mem _)
      · exact (List.mem_cons.mp h).imp_right (List.mem_cons_of_mem _)

/-- Sorting members by name makes none. -/
theorem mem_sortKeysMembers {name : String} {v : Value} : ∀ {ms : List (String × Value)},
    (name, v) ∈ sortKeysMembers ms → ∃ w, (name, w) ∈ ms ∧ v = w.sortKeys
  | [], h => by
    rw [sortKeysMembers] at h
    cases h
  | (other, w) :: ms, h => by
    rw [sortKeysMembers] at h
    rcases mem_insertSorted h with hfirst | hrest
    · cases hfirst
      exact ⟨w, List.mem_cons_self, rfl⟩
    · obtain ⟨w', hmem, hv⟩ := mem_sortKeysMembers hrest
      exact ⟨w', List.mem_cons_of_mem _ hmem, hv⟩

end Json

namespace AuditLog

theorem eventOf_members (log : AuditLog) (stamp : String) (entry : AuditEntry Float) :
    eventOf (log.members stamp entry.record) = entry.event := entry.record_event

theorem lines_events (stamp : String) : ∀ (entries : List (AuditEntry Float)) (log : AuditLog),
    (log.lines stamp entries).map eventOf = entries.map AuditEntry.event
  | [], _ => rfl
  | entry :: entries, log => by
    rw [lines, List.map_cons, List.map_cons, eventOf_members, lines_events stamp entries]

theorem length_lines (stamp : String) : ∀ (entries : List (AuditEntry Float)) (log : AuditLog),
    (log.lines stamp entries).length = entries.length
  | [], _ => rfl
  | _ :: entries, log => congrArg (· + 1) (length_lines stamp entries log.next)

/-- **A line is that of its entry,** written by the log as it stands after the lines
before. -/
theorem lines_split (stamp : String) : ∀ {front : List (List (String × Value))}
    {line : List (String × Value)} {back : List (List (String × Value))} {log : AuditLog}
    {entries : List (AuditEntry Float)}, log.lines stamp entries = front ++ line :: back →
      ∃ before entry since, ∃ reached : AuditLog, entries = before ++ entry :: since ∧
        front = log.lines stamp before ∧ line = reached.members stamp entry.record ∧
        back = reached.next.lines stamp since ∧
        reached.written = log.written + front.length ∧ reached.session = log.session
  | front, line, back, log, [], h => by
    cases front <;> cases h
  | [], line, back, log, entry :: entries, h => by
    obtain ⟨hline, hback⟩ := List.cons.inj h
    exact ⟨[], entry, entries, log, rfl, rfl, hline.symm, hback.symm, rfl, rfl⟩
  | first :: front, line, back, log, entry :: entries, h => by
    obtain ⟨hfirst, hrest⟩ := List.cons.inj h
    obtain ⟨before, e, since, reached, rfl, hfront, hline, hback, hwritten, hsession⟩ :=
      lines_split stamp hrest
    refine ⟨entry :: before, e, since, reached, rfl, ?_, hline, hback, ?_, hsession⟩
    · rw [lines, hfirst, ← hfront]
    · rw [hwritten, List.length_cons]
      show log.written + 1 + front.length = _
      omega

/-- The log has counted a line for each entry. -/
theorem foldl_enter_written (stamp : String) : ∀ (entries : List (AuditEntry Float))
    (log : AuditLog) (files : FileTree),
      (entries.foldl (enter stamp) (log, files)).1.written = log.written + entries.length
  | [], _, _ => rfl
  | entry :: entries, log, files => by
    rw [List.foldl_cons, enter, write_entry]
    refine (foldl_enter_written stamp entries log.next _).trans ?_
    rw [List.length_cons]
    show log.written + 1 + entries.length = _
    omega

/-- A line tells the step of its entry. -/
theorem lookup_step (log : AuditLog) (stamp : String) (entry : AuditEntry Float) :
    Table.lookup "step" (log.members stamp entry.record) =
      entry.step?.map fun step => .integer step := by
  obtain ⟨fields, hfields⟩ := record_fields entry
  rw [log.lookup_field stamp hfields (by decide)]
  cases entry with
  | orderRejected step rejection =>
    obtain ⟨order, reason⟩ := rejection
    cases reason <;> cases hfields <;> rfl
  | _ => cases hfields; rfl

/-- The step of a line is the number of ticks completed before it. -/
theorem lookup_inStep {log : AuditLog} (stamp : String) {before since : List (AuditEntry Float)}
    {entry : AuditEntry Float} (h : InStep 0 (before ++ entry :: since)) :
    Table.lookup "step" (log.members stamp entry.record) =
      if entry.event = "run_started" ∨ entry.event = "run_completed" then none
      else some (.integer ((before.map AuditEntry.event).count "tick_completed")) := by
  rw [lookup_step]
  cases hs : entry.step? with
  | none =>
    rw [if_pos (entry.step?_eq_none_iff.mp hs)]
    rfl
  | some step =>
    have hevent : ¬ (entry.event = "run_started" ∨ entry.event = "run_completed") := fun h => by
      rw [entry.step?_eq_none_iff.mpr h] at hs
      cases hs
    rw [if_neg hevent, h.step_eq hs, Nat.zero_add]
    rfl

theorem lookup_session {log : AuditLog} {id : SessionId} (hlog : log.session = some id)
    (stamp : String) (r : AuditRecord) :
    Table.lookup "session" (log.members stamp r) = some id.toJson := by
  unfold members header
  rw [hlog]
  rfl

/-- Every member of a line that is named for the session tells it, the summary of a run
included. -/
theorem session_of_mem {log : AuditLog} {id : SessionId} (hlog : log.session = some id)
    (stamp : String) {entry : AuditEntry Float}
    (htotal : ∀ total, entry = .runCompleted total → total.session = id) {v : Value}
    (h : ("session", v) ∈ log.members stamp entry.record) : v = id.toJson := by
  unfold members at h
  rcases List.mem_append.mp h with hheader | hfield
  · unfold header at hheader
    rw [hlog] at hheader
    simpa [Json.optionalMember] using hheader
  · obtain ⟨fields, hfields⟩ := record_fields entry
    rw [hfields, Value.sortKeys] at hfield
    obtain ⟨w, hmem, rfl⟩ := Json.mem_sortKeysMembers hfield
    cases entry with
    | orderRejected step rejection =>
      obtain ⟨order, reason⟩ := rejection
      cases reason <;> cases hfields <;> simp [Refusal.members] at hmem
    | runCompleted total =>
      cases hfields
      have hw : w = total.session.toJson := by simpa using hmem
      rw [hw, htotal total rfl]
      rfl
    | _ => cases hfields; simp at hmem

end AuditLog

namespace Broker

/-- A replay adds its lines to the file, and nothing else. -/
theorem replay_text {τ : Type} [Service τ Float] (plan : Plan Float) (options : RunOptions)
    (limit : Nat) (b : Broker τ Float) (log : AuditLog) (stamp : String) (files : FileTree) :
    let done := replay plan options limit b
    (log.writeRun stamp b.session done.entries files).2.text log.place =
      files.text log.place ++ log.unwritten ++ AuditLog.textOf
        ({ log with session := some b.session : AuditLog }.lines stamp done.entries) := by
  obtain ⟨rest, hentries, -⟩ := replay_records plan options limit b
  simp only [hentries]
  exact log.writeRun_text stamp b.session files _ _

/-- A replay that is completed sums up the session of its broker. -/
theorem session_of_completed {τ : Type} [Service τ Float] {plan : Plan Float}
    {options : RunOptions} {limit : Nat} {b : Broker τ Float}
    {before since : List (AuditEntry Float)} {entry : AuditEntry Float}
    (hsplit : (replay plan options limit b).entries = before ++ entry :: since) :
    ∀ total, entry = .runCompleted total → total.session = b.session := by
  rintro total rfl
  obtain ⟨rest, hentries, hrecords⟩ := replay_records plan options limit b
  have hmem : .runCompleted total ∈ (replay plan options limit b).entries := by
    rw [hsplit]
    exact List.mem_append_right _ List.mem_cons_self
  rw [hentries] at hmem
  have hrest := (List.mem_cons.mp hmem).resolve_left (by simp)
  exact (hrecords.counts total (hrecords.outcome_of_mem hrest)).session

/-- A replay with completed rounds only records their reports, and its completion if it has
one. -/
theorem replay_names_completed {σ α : Type} [Amount α] [Service σ α] {plan : Plan α}
    {options : RunOptions} {limit : Nat} {b : Broker σ α}
    (hall : ∀ round ∈ b.rounds plan options limit 0, ∃ report, round.outcome = .ok report) :
    let outcomes := b.outcomes (callsOf (b.rounds plan options limit 0))
    let reports := reportsOf (b.rounds plan options limit 0)
    let done := replay plan options limit b
    let ending := (closing done.outcome).map AuditEntry.event
    done.entries.map AuditEntry.event =
        "run_started" :: reports.flatMap TickReport.lineNames ++ ending ∧
      done.broker.tradeLog = b.tradeLog ++ reports.flatMap (·.executed) ∧
      EndsTrail limit outcomes [] ending done.outcome := by
  intro outcomes reports done ending
  obtain ⟨-, hentries, -⟩ := replay_rounds plan options limit b
  obtain ⟨hlog, -⟩ := replay_results plan options limit b
  have hgood : ∀ fault, outcomes.getLast? ≠ some (.error fault) := fun fault hsome => by
    obtain ⟨round, hround, hfailed⟩ :=
      Option.map_eq_some_iff.mp ((last_outcome limit 0 b).symm.trans hsome)
    obtain ⟨report, hreport⟩ := hall round (List.mem_of_getLast? hround)
    rw [hreport] at hfailed
    cases hfailed
  refine ⟨?_, ?_, ?_⟩
  · rw [hentries, List.cons_append, List.map_cons, List.map_append, entries_completed _ hall]
    rfl
  · rw [hlog, results_rounds, ← reportsOf_executed _ hall]
  · show EndsTrail limit outcomes [] ((closing done.outcome).map AuditEntry.event) done.outcome
    cases houtcome : done.outcome with
    | none =>
      refine .cut ?_ hgood
      rw [← length_rounds_of_cut limit _ ⟨b, _, []⟩ houtcome, ← length_reportsOf hall]
      exact congrArg List.length (reports_rounds plan options limit 0 b)
    | some result =>
      cases result with
      | ok total => exact .completed total hgood
      | error fault =>
        obtain ⟨round, hmem, hfailed⟩ := (replay_error_iff limit b fault).mp houtcome
        obtain ⟨report, hreport⟩ := hall round hmem
        rw [hreport] at hfailed
        cases hfailed

/-- A replay whose last round fails records the reports of the others, the executions that
the last tick has applied, and the abortion. -/
theorem replay_names_failed {σ α : Type} [Amount α] [Service σ α] {plan : Plan α}
    {options : RunOptions} {limit : Nat} {b : Broker σ α} {earlier : List (Round σ α)}
    {last : Round σ α} {fault : BrokerFault α}
    (hsplit : b.rounds plan options limit 0 = earlier ++ [last])
    (hcompleted : ∀ round ∈ earlier, ∃ report, round.outcome = .ok report)
    (hfault : last.outcome = .error fault) :
    let outcomes := b.outcomes (callsOf (b.rounds plan options limit 0))
    let reports := reportsOf earlier
    let done := replay plan options limit b
    ∃ applied, let ending := List.replicate applied.length "order_result" ++ ["run_aborted"]
      done.entries.map AuditEntry.event =
          "run_started" :: reports.flatMap TickReport.lineNames ++ ending ∧
        done.broker.tradeLog = b.tradeLog ++ reports.flatMap (·.executed) ++ applied ∧
        EndsTrail limit outcomes applied ending done.outcome := by
  intro outcomes reports done
  obtain ⟨-, hentries, -⟩ := replay_rounds plan options limit b
  obtain ⟨hlog, -⟩ := replay_results plan options limit b
  have houtcome : done.outcome = some (.error fault) := by
    refine (replay_error_iff limit b fault).mpr ⟨last, ?_, hfault⟩
    rw [hsplit]
    exact List.mem_append_right _ List.mem_cons_self
  have hclosing : closing done.outcome = [] := by
    rw [houtcome]
    rfl
  -- What the failed round records is what its last tick applied.
  obtain ⟨applied, habort⟩ : ∃ applied, last.entries = abortEntries last.step applied fault := by
    unfold Round.entries
    rw [hfault]
    exact ⟨_, rfl⟩
  refine ⟨applied, ?_, ?_, ?_⟩
  · rw [hentries, hclosing, List.append_nil, hsplit, List.map_cons, List.flatMap_append,
      List.flatMap_singleton, List.map_append, entries_completed _ hcompleted, habort,
      abortEntries_events]
    rfl
  · rw [hlog, results_rounds, hsplit, List.flatMap_append, List.flatMap_singleton,
      List.filterMap_append, ← reportsOf_executed _ hcompleted, habort, abortEntries_results,
      List.append_assoc]
  · rw [houtcome]
    refine .aborted applied fault ((last_outcome limit 0 b).trans ?_)
    rw [hsplit, List.getLast?_concat, Option.map_some, hfault]

/-- **What a replay records, by the outcomes of its ticks:** its start, the completed ticks,
and what becomes of it then. What is recorded of executions behind the completed ticks was
applied by the last one. -/
theorem replay_names {σ α : Type} [Amount α] [Service σ α] (plan : Plan α) (options : RunOptions)
    (limit : Nat) (b : Broker σ α) :
    let outcomes := b.outcomes (callsOf (b.rounds plan options limit 0))
    let reports := outcomes.filterMap Except.toOption
    let done := replay plan options limit b
    ∃ applied ending, done.entries.map AuditEntry.event =
        "run_started" :: reports.flatMap TickReport.lineNames ++ ending ∧
      done.broker.tradeLog = b.tradeLog ++ reports.flatMap (·.executed) ++ applied ∧
      EndsTrail limit outcomes applied ending done.outcome := by
  intro outcomes reports done
  have hreports : reports = reportsOf (b.rounds plan options limit 0) :=
    reports_rounds plan options limit 0 b
  rw [hreports]
  rcases rounds_completed plan options limit 0 b with
    hall | ⟨earlier, last, fault, hsplit, hcompleted, hfault⟩
  · obtain ⟨hnames, hlog, hend⟩ := replay_names_completed hall
    exact ⟨[], _, hnames, hlog.trans (List.append_nil _).symm, hend⟩
  · obtain ⟨applied, hrecorded⟩ := replay_names_failed hsplit hcompleted hfault
    rw [hsplit, reportsOf_snoc_failed earlier hfault]
    exact ⟨applied, _, hrecorded⟩

/-- **The shape of an audit trail.** Whatever the plan, the service and the options, the
lines that a replay adds to the file are: its start; then each tick that was completed, as
its rejections, its executions and the tick itself or the end of the session; and last, if
the replay is completed, its completion, or if it fails, the executions that were applied by
the tick that failed and the abortion. The ticks are those of the run that the replay makes
of the broker. Where the rounds do not suffice the trail has come no further. The session
ends once at most, and that is followed by the completion only. The lines are numbered
through, from the number that the log has come to; every member of a line that is named for
the session tells the session of the broker; and every line but the first and the completion
tells a step, which is the number of ticks completed before it. The summary of a completed
replay counts the lines. -/
theorem trail_shape {τ : Type} [Service τ Float] (plan : Plan Float) (options : RunOptions)
    (limit : Nat) (b : Broker τ Float) (log : AuditLog) (stamp : String) (files : FileTree) :
    let calls := callsOf (b.rounds plan options limit 0)
    let reports := (b.outcomes calls).filterMap Except.toOption
    let done := replay plan options limit b
    let lines := { log with session := some b.session : AuditLog }.lines stamp done.entries
    let names := lines.map eventOf
    let wrote := log.writeRun stamp b.session done.entries files
    wrote.2.text log.place = files.text log.place ++ log.unwritten ++ AuditLog.textOf lines ∧
    done.broker = b.after calls ∧
    (∃ applied ending,
      names = "run_started" :: reports.flatMap TickReport.lineNames ++ ending ∧
      done.broker.tradeLog = b.tradeLog ++ reports.flatMap (·.executed) ++ applied ∧
      EndsTrail limit (b.outcomes calls) applied ending done.outcome) ∧
    names.count "session_finished" ≤ 1 ∧
    wrote.1.written = log.written + lines.length ∧
    (∀ front line back, lines = front ++ line :: back →
      (eventOf line = "session_finished" → ∀ later ∈ back, eventOf later = "run_completed") ∧
      Table.lookup "seq" line = some (.integer ↑(log.written + front.length)) ∧
      Table.lookup "session" line = some b.session.toJson ∧
      (∀ v, ("session", v) ∈ line → v = b.session.toJson) ∧
      Table.lookup "step" line =
        if eventOf line = "run_started" ∨ eventOf line = "run_completed" then none
        else some (.integer ((front.map eventOf).count "tick_completed"))) ∧
    ∀ total, done.outcome = some (.ok total) →
      total.ticks = names.count "tick_completed" + names.count "session_finished" ∧
      total.rejected = names.count "order_rejected" ∧
      total.results = names.count "order_result" := by
  intro calls reports done lines names wrote
  obtain ⟨rest, hdone, hrecords⟩ := replay_records plan options limit b
  obtain ⟨hbroker, -, -⟩ := replay_rounds plan options limit b
  have hnames : names = done.entries.map AuditEntry.event := AuditLog.lines_events stamp _ _
  have hstep : InStep 0 done.entries := by
    rw [hdone]
    exact inStep_started _ _ hrecords.inStep
  have hlast : EndsLast done.entries := by
    rw [hdone]
    exact endsLast_started _ _ hrecords.endsLast
  refine ⟨replay_text plan options limit b log stamp files, hbroker, ?_, ?_, ?_,
    fun front line back hlines => ?_, fun total htotal => ?_⟩
  · rw [hnames]
    exact replay_names plan options limit b
  · rw [hnames]
    exact hlast.count_le
  · refine (AuditLog.foldl_enter_written stamp done.entries _ files).trans ?_
    exact congrArg (log.written + ·) (AuditLog.length_lines stamp _ _).symm
  · obtain ⟨before, entry, since, reached, hsplit, rfl, rfl, rfl, hwritten, hsession⟩ :=
      AuditLog.lines_split stamp hlines
    rw [hsplit] at hlast hstep
    refine ⟨fun hend later hlater => ?_, ?_, AuditLog.lookup_session hsession stamp _,
      fun v hmem => AuditLog.session_of_mem hsession stamp (session_of_completed hsplit) hmem, ?_⟩
    · rw [AuditLog.eventOf_members] at hend
      have hevent := List.mem_map_of_mem (f := eventOf) hlater
      rw [AuditLog.lines_events] at hevent
      obtain ⟨e, he, hevent⟩ := List.mem_map.mp hevent
      rw [← hevent]
      exact hlast.later hend e he
    · rw [← hwritten]
      rfl
    · rw [AuditLog.lookup_inStep stamp hstep, AuditLog.eventOf_members, AuditLog.lines_events]
  · obtain ⟨-, hticks, hrejected, hresults⟩ := hrecords.counts total htotal
    rw [hnames, hdone, List.map_cons]
    refine ⟨?_, ?_, ?_⟩
    · rw [hticks]
      simp [AuditEntry.event]
    · rw [hrejected]
      simp [AuditEntry.event]
    · rw [hresults]
      simp [AuditEntry.event]

end Broker
end Brokerage
