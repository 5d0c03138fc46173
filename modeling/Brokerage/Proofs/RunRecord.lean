/-
# What a replay records

A replay records its start, then each completed tick (`entries_completed`), and last that
it is completed or was aborted (`Records`). A tick that ends the session has nothing behind
it but the completion (`Records.endsLast`), the step of an entry is the number of ticks
completed before it (`Records.inStep`), and the summary of a completed replay counts the
entries (`Records.counts`).

Key definitions: `AuditEntry.event`, `AuditEntry.step?`, `Completes`, `Records`,
`TickReport.lineNames`, `EndsTrail`, `InStep`, `EndsLast`, `Counts`.
Key theorems: `Broker.finished_of_report`, `Broker.advance_records`,
`Broker.replay_records`, `entries_completed`, `Records.inStep`, `Records.endsLast`,
`Records.counts`.
-/
import Brokerage.Audit
import Brokerage.Proofs.Attempts
import Brokerage.Proofs.TickTrace

namespace Brokerage

variable {σ α : Type} [Amount α]

namespace AuditEntry

/-- The name under which an entry is written. -/
def event : AuditEntry α → String
  | .runStarted _ _ => "run_started"
  | .orderRejected _ _ => "order_rejected"
  | .orderResult _ _ => "order_result"
  | .tickCompleted _ _ => "tick_completed"
  | .sessionFinished _ => "session_finished"
  | .runCompleted _ => "run_completed"
  | .runAborted _ _ => "run_aborted"

/-- The step that an entry belongs to. -/
def step? : AuditEntry α → Option Nat
  | .orderRejected step _ | .orderResult step _ | .tickCompleted step _ | .sessionFinished step
  | .runAborted step _ => some step
  | .runStarted _ _ | .runCompleted _ => none

theorem step?_eq_none_iff (entry : AuditEntry α) :
    entry.step? = none ↔ entry.event = "run_started" ∨ entry.event = "run_completed" := by
  cases entry <;> simp [step?, event]

theorem record_event (entry : AuditEntry Float) : entry.record.event = entry.event := by
  cases entry <;> rfl

end AuditEntry

/-- What a run that is over records: nothing if it is cut short, or its summary. -/
inductive Completes (s : RunSummary α) :
    List (AuditEntry α) → Option (Except (BrokerFault α) (RunSummary α)) → Prop
  | cut : Completes s [] none
  | completed (total : RunSummary α)
      (h : total = { s with finalCash := total.finalCash, finished := total.finished }) :
    Completes s [.runCompleted total] (some (.ok total))

/-- What a run records that has counted `s`, and how it ends. -/
inductive Records : RunSummary α → List (AuditEntry α) →
    Option (Except (BrokerFault α) (RunSummary α)) → Prop
  | closed {s rest outcome} (h : Completes s rest outcome) : Records s rest outcome
  | aborted (s : RunSummary α) (applied : List (Execution α)) (fault : BrokerFault α) :
    Records s (abortEntries s.ticks applied fault) (some (.error fault))
  /-- A tick that ends the session. -/
  | ended {s rest outcome} (report : TickReport α) (hlast : report.finished = true)
      (h : Completes (s.count report) rest outcome) :
    Records s (tickEntries s.ticks report ++ rest) outcome
  | ticked {s rest outcome} (report : TickReport α) (hnext : report.finished = false)
      (h : Records (s.count report) rest outcome) :
    Records s (tickEntries s.ticks report ++ rest) outcome

/-! ### What a replay records -/

namespace Broker

variable [Service σ α]

/-- A tick ends the session if it reports so, and only then. -/
theorem finished_of_report {b : Broker σ α} (hactive : b.finished = false) {report : TickReport α}
    (h : b.tick.1 = .ok report) : b.tick.2.finished = report.finished := by
  obtain ⟨t, ht⟩ := b.tick_trace
  have hcloses := ht.closes
  rw [h] at hcloses
  cases hclosing : t.closing with
  | nil =>
    rw [hclosing] at hcloses
    cases hcloses
  | cons event rest =>
    rw [hclosing] at hcloses
    cases hcloses with
    | ended _ hreport _ hfinished => rw [hreport, hfinished]
    | completed _ _ hreport _ _ hfinished => rw [hreport, hfinished, hactive]

theorem finish_finished (plan : Plan α) (options : RunOptions) (step : Nat) {b : Broker σ α}
    (hactive : b.finished = false) {report : TickReport α}
    (h : (b.round plan options step).outcome = .ok report) :
    (b.round plan options step).finish.finished = report.finished := by
  obtain ⟨before, hcalls, -, -, houtcome⟩ := round_last plan options step hactive
  have hfinish : (b.round plan options step).finish = (b.after before).tick.2 := by
    show b.after (b.round plan options step).calls = _
    rw [hcalls, after_append]
    rfl
  rw [houtcome] at h
  have hopen : (b.after before).finished = false := by
    cases hf : (b.after before).finished with
    | false => rfl
    | true =>
      rw [tick_finished hf] at h
      cases h
  rw [hfinish, finished_of_report hopen h]

/-- A run that is over is completed, unless no round is left for it. -/
theorem advance_completes (plan : Plan α) (options : RunOptions) : ∀ (limit : Nat)
    (s : RunSummary α) (run : Run σ α),
      (run.broker.finished || options.maxTicks.any (· ≤ s.ticks)) = true →
        ∃ rest, (run.advance plan options limit s).entries = run.entries ++ rest ∧
          Completes s rest (run.advance plan options limit s).outcome
  | 0, _, _, _ => ⟨[], (List.append_nil _).symm, .cut⟩
  | limit + 1, s, run, h => by
    obtain ⟨notes, hdone⟩ := advance_over plan options limit s run h
    rw [hdone]
    exact ⟨_, rfl, .completed _ rfl⟩

/-- **What a run records** follows its rounds. -/
theorem advance_records (plan : Plan α) (options : RunOptions) : ∀ (limit : Nat)
    (s : RunSummary α) (run : Run σ α), ∃ rest,
      (run.advance plan options limit s).entries = run.entries ++ rest ∧
        Records s rest (run.advance plan options limit s).outcome
  | 0, _, _ => ⟨[], (List.append_nil _).symm, .closed .cut⟩
  | limit + 1, s, run => by
    cases hgo : run.broker.finished || options.maxTicks.any (· ≤ s.ticks) with
    | true =>
      obtain ⟨rest, hentries, hcompletes⟩ := advance_completes plan options (limit + 1) s run hgo
      exact ⟨rest, hentries, .closed hcompletes⟩
    | false =>
      obtain ⟨hactive, -⟩ := Bool.or_eq_false_iff.mp hgo
      obtain ⟨notes, hdone⟩ := advance_round plan options limit s run hgo
      rw [hdone]
      cases ho : (run.broker.round plan options s.ticks).outcome with
      | error fault =>
        refine ⟨_, rfl, ?_⟩
        unfold Round.entries
        rw [ho]
        exact .aborted s _ fault
      | ok report =>
        have hfinish := finish_finished plan options s.ticks hactive ho
        have hentries : (run.broker.round plan options s.ticks).entries =
            tickEntries s.ticks report := by
          unfold Round.entries
          rw [ho]
          rfl
        simp only [hentries]
        cases hreport : report.finished with
        | true =>
          obtain ⟨rest, hrest, hcompletes⟩ := advance_completes plan options limit (s.count report)
            ⟨(run.broker.round plan options s.ticks).finish,
              run.entries ++ tickEntries s.ticks report, notes⟩
            (by rw [hfinish, hreport]; rfl)
          refine ⟨tickEntries s.ticks report ++ rest, ?_, .ended report hreport hcompletes⟩
          rw [hrest, List.append_assoc]
        | false =>
          obtain ⟨rest, hrest, hrecords⟩ := advance_records plan options limit (s.count report)
            ⟨(run.broker.round plan options s.ticks).finish,
              run.entries ++ tickEntries s.ticks report, notes⟩
          refine ⟨tickEntries s.ticks report ++ rest, ?_, .ticked report hreport hrecords⟩
          rw [hrest, List.append_assoc]

/-- **What a replay records:** its start, and then its run from the first step on. -/
theorem replay_records (plan : Plan α) (options : RunOptions) (limit : Nat) (b : Broker σ α) :
    ∃ rest, (replay plan options limit b).entries =
        .runStarted options.planFile b.account.ledger.cash :: rest ∧
      Records ⟨b.session, 0, 0, 0, 0, b.account.ledger.cash, none, false⟩ rest
        (replay plan options limit b).outcome :=
  advance_records plan options limit _ ⟨b, [.runStarted options.planFile _], []⟩

end Broker

/-! ### The shape of what is recorded -/

/-- The names of the lines of a completed tick: rejections, executions, and then the tick
itself or the end of the session. -/
def TickReport.lineNames (report : TickReport α) : List String :=
  List.replicate report.rejected.length "order_rejected" ++
    List.replicate report.executed.length "order_result" ++
    [if report.finished then "session_finished" else "tick_completed"]

/-- What stands behind the completed ticks of a trail, by the outcomes of all ticks and by
what was applied that no report tells. -/
inductive EndsTrail (limit : Nat) (outcomes : List (Except (BrokerFault α) (TickReport α))) :
    List (Execution α) → List String → Option (Except (BrokerFault α) (RunSummary α)) → Prop
  /-- As many ticks were completed as there were rounds. -/
  | cut (hall : (outcomes.filterMap Except.toOption).length = limit)
    (hlast : ∀ fault, outcomes.getLast? ≠ some (.error fault)) :
    EndsTrail limit outcomes [] [] none
  | completed (total : RunSummary α)
    (hlast : ∀ fault, outcomes.getLast? ≠ some (.error fault)) :
    EndsTrail limit outcomes [] ["run_completed"] (some (.ok total))
  /-- The last tick failed, after it had applied some executions. -/
  | aborted (applied : List (Execution α)) (fault : BrokerFault α)
    (hlast : outcomes.getLast? = some (.error fault)) :
    EndsTrail limit outcomes applied
      (List.replicate applied.length "order_result" ++ ["run_aborted"]) (some (.error fault))

theorem tickEntries_events (step : Nat) (report : TickReport α) :
    (tickEntries step report).map AuditEntry.event = report.lineNames := by
  unfold tickEntries TickReport.lineNames
  rw [List.map_append, List.map_append, List.map_map, List.map_map]
  have hrejected : report.rejected.map (AuditEntry.event ∘ AuditEntry.orderRejected step) =
      List.replicate report.rejected.length "order_rejected" := List.map_const ..
  have hresults : report.executed.map (AuditEntry.event ∘ AuditEntry.orderResult step) =
      List.replicate report.executed.length "order_result" := List.map_const ..
  rw [hrejected, hresults]
  cases report.finished <;> rfl

theorem abortEntries_events (step : Nat) (applied : List (Execution α)) (fault : BrokerFault α) :
    (abortEntries step applied fault).map AuditEntry.event =
      List.replicate applied.length "order_result" ++ ["run_aborted"] := by
  unfold abortEntries
  rw [List.map_append, List.map_map]
  exact congrArg (· ++ ["run_aborted"]) (List.map_const ..)

theorem Round.entries_completed [Service σ α] {round : Round σ α} {report : TickReport α}
    (h : round.outcome = .ok report) :
    round.entries.map AuditEntry.event = report.lineNames := by
  unfold Round.entries
  rw [h]
  exact tickEntries_events round.step report

/-- **Completed rounds are recorded tick by tick.** -/
theorem entries_completed [Service σ α] : ∀ rounds : List (Round σ α),
    (∀ round ∈ rounds, ∃ report, round.outcome = .ok report) →
      (rounds.flatMap Round.entries).map AuditEntry.event =
        (reportsOf rounds).flatMap TickReport.lineNames
  | [], _ => rfl
  | round :: rounds, h => by
    obtain ⟨report, hreport⟩ := h round List.mem_cons_self
    have ih := entries_completed rounds fun r hr => h r (List.mem_cons_of_mem round hr)
    rw [List.flatMap_cons, List.map_append, Round.entries_completed hreport, ih, reportsOf_cons,
      List.flatMap_append, hreport]
    exact congrArg (· ++ _) (List.append_nil _).symm

/-- How often the names come up in the entries of a tick. -/
theorem count_tickEntries (step : Nat) (report : TickReport α) :
    let names := (tickEntries step report).map AuditEntry.event
    names.count "order_rejected" = report.rejected.length ∧
    names.count "order_result" = report.executed.length ∧
    names.count "tick_completed" + names.count "session_finished" = 1 := by
  simp only [tickEntries_events, TickReport.lineNames, List.count_append, List.count_replicate]
  cases report.finished <;> simp

/-- The entries belong to the steps that a run comes to which has completed so many
ticks: each completed tick leads to the next step. -/
def InStep : Nat → List (AuditEntry α) → Prop
  | _, [] => True
  | ticks, entry :: entries => (∀ step, entry.step? = some step → step = ticks) ∧
    InStep (ticks + if entry.event = "tick_completed" then 1 else 0) entries

/-- Entries of the step at hand, none of them a completed tick, do not lead on. -/
theorem inStep_part {ticks : Nat} {more : List (AuditEntry α)} (hmore : InStep ticks more) :
    ∀ {entries : List (AuditEntry α)},
      (∀ entry ∈ entries, entry.step? = some ticks ∧ entry.event ≠ "tick_completed") →
        InStep ticks (entries ++ more)
  | [], _ => hmore
  | entry :: entries, h => by
    obtain ⟨hstep, hevent⟩ := h entry List.mem_cons_self
    refine ⟨fun step hs => ?_, ?_⟩
    · rw [hstep] at hs
      exact (Option.some.inj hs).symm
    · rw [if_neg hevent]
      exact inStep_part hmore fun e he => h e (List.mem_cons_of_mem _ he)

theorem inStep_started (planFile : String) (cash : α) {rest : List (AuditEntry α)}
    (h : InStep 0 rest) : InStep 0 (.runStarted planFile cash :: rest) :=
  ⟨fun _ hstep => (nomatch hstep), h⟩

theorem inStep_tickEntries {ticks : Nat} {report : TickReport α} {rest : List (AuditEntry α)}
    (h : InStep (if report.finished then ticks else ticks + 1) rest) :
    InStep ticks (tickEntries ticks report ++ rest) := by
  unfold tickEntries
  rw [List.append_assoc]
  refine inStep_part ?_ fun entry hentry => ?_
  · cases hreport : report.finished <;> rw [hreport] at h <;>
      exact ⟨fun step hs => (Option.some.inj hs).symm, h⟩
  · rcases List.mem_append.mp hentry with hmem | hmem
    · obtain ⟨rejection, -, rfl⟩ := List.mem_map.mp hmem
      exact ⟨rfl, by simp [AuditEntry.event]⟩
    · obtain ⟨e, -, rfl⟩ := List.mem_map.mp hmem
      exact ⟨rfl, by simp [AuditEntry.event]⟩

theorem inStep_abortEntries (ticks : Nat) (applied : List (Execution α)) (fault : BrokerFault α) :
    InStep ticks (abortEntries ticks applied fault) := by
  have hlast : InStep ticks [AuditEntry.runAborted ticks fault] :=
    ⟨fun step hs => (Option.some.inj hs).symm, trivial⟩
  refine inStep_part hlast fun entry hentry => ?_
  obtain ⟨e, -, rfl⟩ := List.mem_map.mp hentry
  exact ⟨rfl, by simp [AuditEntry.event]⟩

/-- The step of an entry is the number of ticks completed before it. -/
theorem InStep.step_eq : ∀ {front : List (AuditEntry α)} {entry : AuditEntry α}
    {back : List (AuditEntry α)} {ticks step : Nat}, InStep ticks (front ++ entry :: back) →
      entry.step? = some step →
        step = ticks + (front.map AuditEntry.event).count "tick_completed"
  | [], _, _, _, _, h, hstep => h.1 _ hstep
  | first :: front, entry, back, ticks, step, h, hstep => by
    have ih := InStep.step_eq h.2 hstep
    rw [ih, List.map_cons, List.count_cons]
    by_cases hfirst : first.event = "tick_completed"
    · simp only [hfirst, if_true, beq_self_eq_true]
      omega
    · simp only [hfirst, if_false, beq_iff_eq]
      omega

/-- The total goes on from `s` by what is recorded. -/
structure Counts (s total : RunSummary α) (entries : List (AuditEntry α)) : Prop where
  session : total.session = s.session
  ticks : total.ticks = s.ticks + (entries.map AuditEntry.event).count "tick_completed" +
    (entries.map AuditEntry.event).count "session_finished"
  rejected : total.rejected = s.rejected + (entries.map AuditEntry.event).count "order_rejected"
  results : total.results = s.results + (entries.map AuditEntry.event).count "order_result"

theorem Counts.tick {s total : RunSummary α} {report : TickReport α} {rest : List (AuditEntry α)}
    (h : Counts (s.count report) total rest) :
    Counts s total (tickEntries s.ticks report ++ rest) := by
  obtain ⟨hrejected, hresults, htick⟩ := count_tickEntries s.ticks report
  constructor
  · exact h.session
  · rw [h.ticks, List.map_append, List.count_append, List.count_append]
    show s.ticks + 1 + _ + _ = _
    omega
  · rw [h.rejected, List.map_append, List.count_append, hrejected]
    exact Nat.add_assoc _ _ _
  · rw [h.results, List.map_append, List.count_append, hresults]
    exact Nat.add_assoc _ _ _

theorem not_mem_tickEntries (total : RunSummary α) (step : Nat) (report : TickReport α) :
    .runCompleted total ∉ tickEntries step report := by
  unfold tickEntries
  cases report.finished <;> simp

/-- The end of the session has nothing behind it but the completion of the run. -/
def EndsLast (entries : List (AuditEntry α)) : Prop :=
  entries.Pairwise fun earlier later =>
    earlier.event = "session_finished" → later.event = "run_completed"

theorem endsLast_append {entries more : List (AuditEntry α)}
    (h : ∀ entry ∈ entries, entry.event ≠ "session_finished") (hmore : EndsLast more) :
    EndsLast (entries ++ more) :=
  List.pairwise_append.mpr ⟨List.pairwise_iff_forall_sublist.mpr fun hsub hend =>
    absurd hend (h _ (hsub.subset List.mem_cons_self)), hmore,
    fun entry hentry _ _ hend => absurd hend (h entry hentry)⟩

theorem endsLast_started (planFile : String) (cash : α) {rest : List (AuditEntry α)}
    (h : EndsLast rest) : EndsLast (.runStarted planFile cash :: rest) :=
  List.pairwise_cons.mpr ⟨fun _ _ hend => by simp [AuditEntry.event] at hend, h⟩

theorem EndsLast.later {front back : List (AuditEntry α)} {entry : AuditEntry α}
    (h : EndsLast (front ++ entry :: back)) (hend : entry.event = "session_finished") :
    ∀ later ∈ back, later.event = "run_completed" := fun later hlater =>
  (List.pairwise_cons.mp (List.pairwise_append.mp h).2.1).1 later hlater hend

/-- So the session ends once at most. -/
theorem EndsLast.count_le : ∀ {entries : List (AuditEntry α)}, EndsLast entries →
    (entries.map AuditEntry.event).count "session_finished" ≤ 1
  | [], _ => Nat.zero_le 1
  | entry :: entries, h => by
    obtain ⟨hlater, hrest⟩ := List.pairwise_cons.mp h
    rw [List.map_cons]
    by_cases hend : entry.event = "session_finished"
    · have hnone : "session_finished" ∉ entries.map AuditEntry.event := fun hmem => by
        obtain ⟨later, hin, hlate⟩ := List.mem_map.mp hmem
        rw [hlater later hin hend] at hlate
        exact absurd hlate (by decide)
      refine Nat.le_of_eq ?_
      rw [hend, List.count_cons_self, List.count_eq_zero_of_not_mem hnone]
    · rw [List.count_cons_of_ne hend]
      exact EndsLast.count_le hrest

theorem endsLast_tickEntries {step : Nat} {report : TickReport α} {rest : List (AuditEntry α)}
    (hrest : EndsLast rest)
    (hlast : report.finished = true → ∀ entry ∈ rest, entry.event = "run_completed") :
    EndsLast (tickEntries step report ++ rest) := by
  unfold tickEntries
  rw [List.append_assoc]
  refine endsLast_append (fun entry hentry => ?_) (List.pairwise_cons.mpr ⟨?_, hrest⟩)
  · rcases List.mem_append.mp hentry with hmem | hmem
    · obtain ⟨rejection, -, rfl⟩ := List.mem_map.mp hmem
      simp [AuditEntry.event]
    · obtain ⟨e, -, rfl⟩ := List.mem_map.mp hmem
      simp [AuditEntry.event]
  · intro later hlater hend
    cases hreport : report.finished with
    | true => exact hlast hreport later hlater
    | false =>
      rw [hreport] at hend
      simp [AuditEntry.event] at hend

namespace Completes

variable {s : RunSummary α} {rest : List (AuditEntry α)}
  {outcome : Option (Except (BrokerFault α) (RunSummary α))}

theorem inStep (h : Completes s rest outcome) (ticks : Nat) : InStep ticks rest := by
  cases h with
  | cut => trivial
  | completed total => exact ⟨fun step hs => (by cases hs), trivial⟩

theorem events (h : Completes s rest outcome) :
    ∀ entry ∈ rest, entry.event = "run_completed" := by
  cases h with
  | cut => exact fun _ hmem => by cases hmem
  | completed total =>
    intro entry hmem
    rw [List.mem_singleton.mp hmem]
    rfl

theorem counts (h : Completes s rest outcome) (total : RunSummary α)
    (htotal : outcome = some (.ok total)) : Counts s total rest := by
  cases h with
  | cut => cases htotal
  | completed done hdone =>
    cases htotal
    rw [hdone]
    exact ⟨rfl, rfl, rfl, rfl⟩

theorem endsLast (h : Completes s rest outcome) : EndsLast rest := by
  cases h with
  | cut => exact List.Pairwise.nil
  | completed total => exact List.pairwise_singleton _ _

theorem outcome_of_mem {total : RunSummary α} (h : Completes s rest outcome)
    (hmem : .runCompleted total ∈ rest) : outcome = some (.ok total) := by
  cases h with
  | cut => cases hmem
  | completed done =>
    cases List.mem_singleton.mp hmem
    rfl

end Completes

namespace Records

variable {s : RunSummary α} {entries : List (AuditEntry α)}
  {outcome : Option (Except (BrokerFault α) (RunSummary α))}

/-- **The steps** count the completed ticks. -/
theorem inStep (h : Records s entries outcome) : InStep s.ticks entries := by
  induction h with
  | closed h => exact h.inStep _
  | aborted s applied fault => exact inStep_abortEntries s.ticks applied fault
  | ended report hlast h =>
    refine inStep_tickEntries ?_
    rw [hlast]
    exact h.inStep _
  | ticked report hnext h ih =>
    refine inStep_tickEntries ?_
    rw [hnext]
    exact ih

/-- **The summary counts the entries.** -/
theorem counts (h : Records s entries outcome) :
    ∀ total, outcome = some (.ok total) → Counts s total entries := by
  induction h with
  | closed h => exact h.counts
  | aborted s applied fault => exact fun total htotal => by cases htotal
  | ended report hlast h => exact fun total htotal => (h.counts total htotal).tick
  | ticked report hnext h ih => exact fun total htotal => (ih total htotal).tick

/-- The summary that is recorded is that of the outcome. -/
theorem outcome_of_mem {total : RunSummary α} (h : Records s entries outcome) :
    .runCompleted total ∈ entries → outcome = some (.ok total) := by
  induction h with
  | closed h => exact h.outcome_of_mem
  | aborted s applied fault =>
    intro hmem
    simp [abortEntries] at hmem
  | ended report hlast h =>
    intro hmem
    exact h.outcome_of_mem ((List.mem_append.mp hmem).resolve_left (not_mem_tickEntries _ _ _))
  | ticked report hnext h ih =>
    intro hmem
    exact ih ((List.mem_append.mp hmem).resolve_left (not_mem_tickEntries _ _ _))

/-- **The end of the session** is followed by the completion of the run only. -/
theorem endsLast (h : Records s entries outcome) : EndsLast entries := by
  induction h with
  | closed h => exact h.endsLast
  | aborted s applied fault =>
    refine endsLast_append (fun entry hentry => ?_) (List.pairwise_singleton _ _)
    obtain ⟨e, -, rfl⟩ := List.mem_map.mp hentry
    simp [AuditEntry.event]
  | ended report hlast h => exact endsLast_tickEntries h.endsLast fun _ => h.events
  | ticked report hnext h ih =>
    refine endsLast_tickEntries ih fun hlast => ?_
    rw [hnext] at hlast
    cases hlast

end Records

end Brokerage
