/-
# What a replay records of its executions

A round that is completed records the executions of its report, and a round that fails
records what its last tick logged before it failed. Either way these are the executions
that the round logged (`Round.entries_results`), whatever attempts there were before
and however it failed. So the trail of a replay has what the trade log gained
(`Broker.replay_results`), and so have the lines written of it
(`Broker.recorded_results`).

Key theorems: `Round.entries_results`, `Broker.replay_results`,
`Broker.recorded_results`.
-/
import Brokerage.Proofs.Attempts
import Brokerage.Proofs.Recorded
import Brokerage.Proofs.Trail

namespace Brokerage

variable {σ α : Type} [Amount α]

theorem orderResults_results (step : Nat) (es : List (Execution α)) :
    (es.map (AuditEntry.orderResult step)).filterMap AuditEntry.result? = es := by
  rw [List.filterMap_map]
  exact List.filterMap_some

theorem tickEntries_results (step : Nat) (report : TickReport α) :
    (tickEntries step report).filterMap AuditEntry.result? = report.executed := by
  have hrejected : (report.rejected.map (AuditEntry.orderRejected step)).filterMap
      AuditEntry.result? = [] := by
    rw [List.filterMap_map]
    exact List.filterMap_eq_nil_iff.mpr fun _ _ => rfl
  unfold tickEntries
  rw [List.filterMap_append, List.filterMap_append, hrejected, orderResults_results]
  cases report.finished <;> exact List.append_nil _

theorem abortEntries_results (step : Nat) (applied : List (Execution α)) (fault : BrokerFault α) :
    (abortEntries step applied fault).filterMap AuditEntry.result? = applied := by
  unfold abortEntries
  rw [List.filterMap_append, orderResults_results]
  exact List.append_nil _

variable [Service σ α]

/-- **A round records what it logged.** -/
theorem Round.entries_results (plan : Plan α) (options : RunOptions) (step : Nat)
    {b : Broker σ α} (hactive : b.finished = false) :
    let round := b.round plan options step
    round.entries.filterMap AuditEntry.result? =
      Broker.gather Broker.logging round.start round.calls := by
  intro round
  unfold Round.entries
  cases houtcome : round.outcome with
  | ok report =>
    exact (tickEntries_results _ _).trans (Broker.logging_round plan options step hactive houtcome).symm
  | error fault =>
    simp only [abortEntries_results, round.finish_tradeLog]
    exact List.drop_left

/-- Completed rounds report what they record. -/
theorem reportsOf_executed : ∀ rounds : List (Round σ α),
    (∀ round ∈ rounds, ∃ report, round.outcome = .ok report) →
      (reportsOf rounds).flatMap (·.executed) =
        (rounds.flatMap Round.entries).filterMap AuditEntry.result?
  | [], _ => rfl
  | round :: rounds, h => by
    obtain ⟨report, hreport⟩ := h round List.mem_cons_self
    have ih := reportsOf_executed rounds fun r hr => h r (List.mem_cons_of_mem round hr)
    have hentries : round.entries = tickEntries round.step report := by
      unfold Round.entries
      rw [hreport]
    rw [reportsOf_cons, List.flatMap_append, List.flatMap_cons, List.filterMap_append, ih, hreport,
      hentries, tickEntries_results]
    exact congrArg (· ++ _) (List.append_nil _)

namespace Broker

/-- Of a replay the executions of its rounds are recorded, and no others. -/
theorem results_rounds (plan : Plan α) (options : RunOptions) (limit : Nat) (b : Broker σ α) :
    (replay plan options limit b).entries.filterMap AuditEntry.result? =
      ((b.rounds plan options limit 0).flatMap Round.entries).filterMap AuditEntry.result? := by
  obtain ⟨-, hentries, -⟩ := replay_rounds plan options limit b
  rw [hentries, List.cons_append, List.filterMap_cons_none rfl, List.filterMap_append,
    filterMap_closing fun _ => rfl, List.append_nil]

/-- **The trail has what the trade log gained,** and the summary of a completed replay
counts it. -/
theorem replay_results (plan : Plan α) (options : RunOptions) (limit : Nat) (b : Broker σ α) :
    let done := replay plan options limit b
    let recorded := done.entries.filterMap AuditEntry.result?
    done.broker.tradeLog = b.tradeLog ++ recorded ∧
    ∀ total, done.outcome = some (.ok total) → total.results = recorded.length := by
  obtain ⟨hbroker, -, htotal⟩ := replay_rounds plan options limit b
  have hrecorded := results_rounds plan options limit b
  refine ⟨?_, fun total h => ?_⟩
  · have hlogged : gather logging b (callsOf (b.rounds plan options limit 0)) =
        ((b.rounds plan options limit 0).flatMap Round.entries).filterMap AuditEntry.result? := by
      rw [gather_rounds, List.filterMap_flatMap]
      refine (List.flatMap_congr fun round hround => ?_).symm
      obtain ⟨step, start, hactive, rfl⟩ := round_of_mem hround
      exact Round.entries_results plan options step hactive
    rw [hrecorded, ← hlogged, hbroker]
    exact gather_record (fun b call => (b.perform_executions call).1) _ b
  · obtain ⟨-, -, -, hresults⟩ := htotal total h
    rw [hrecorded, hresults]
    refine congrArg List.length (reportsOf_executed _ fun round hround => ?_)
    cases houtcome : round.outcome with
    | ok report => exact ⟨report, rfl⟩
    | error fault =>
      have hfault : (replay plan options limit b).outcome = some (.error fault) :=
        advance_fault houtcome limit _ _ hround
      rw [hfault] at h
      cases h

/-- **Every execution that a replay applies is recorded once.** Whatever the plan, the
service and the options, and however the replay ends: what the trade log gained is what
the entries record, and the lines of executions that are added to the file tell it, in
order and one for one. A replay that is completed counts as many results. -/
theorem recorded_results {τ : Type} [Service τ Float] (plan : Plan Float) (options : RunOptions)
    (limit : Nat) (b : Broker τ Float) (log : AuditLog) (stamp : String) (files : FileTree) :
    let done := replay plan options limit b
    let lines := { log with session := some b.session : AuditLog }.lines stamp done.entries
    ∃ gained, done.broker.tradeLog = b.tradeLog ++ gained ∧
      done.entries.filterMap AuditEntry.result? = gained ∧
      (log.writeRun stamp b.session done.entries files).2.text log.place =
        files.text log.place ++ log.unwritten ++ AuditLog.textOf lines ∧
      (lines.filter tellsResult).map resultTold = gained.map Execution.told ∧
      ∀ total, done.outcome = some (.ok total) → total.results = gained.length := by
  obtain ⟨hlog, hcount⟩ := replay_results plan options limit b
  obtain ⟨-, hentries, -⟩ := replay_rounds plan options limit b
  refine ⟨_, hlog, rfl, ?_, AuditLog.lines_told stamp _ _, hcount⟩
  rw [hentries]
  exact log.writeRun_text stamp b.session files _ _

end Broker
end Brokerage
