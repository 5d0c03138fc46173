/-
# What a report accounts for

The trade log and the values of a broker are only added to. A tick that is completed adds
what its report says, no more and no less, and the report also tells the batch that the
service took, the orders that came to rest and where the session stands
(`Broker.tick_reports`). A tick that fails has no report and enters no value. It can have
applied the first executions of its step, and then the failure says so: an item failed or
a holding had no quote (`Broker.tick_fails`).

Key definitions: `Broker.acknowledging`, `Broker.Reports`, `Broker.Fails`.
Key theorems: `Broker.applyStep_reports`, `Broker.tick_reports`, `Broker.tick_fails`,
`Broker.reports_account_for_histories`.
-/
import Brokerage.Proofs.MarketView

namespace Brokerage

variable {σ α : Type} [Amount α]

namespace Broker

variable [Service σ α]

/-- The orders of the batch that the service takes in a call. -/
def acknowledging (b : Broker σ α) (call : Call α) : List (Order α) :=
  ((b.asking call).filterMap ServiceCall.submission?).flatMap (·.acknowledged)

/-- What the report of a tick that leads from `b` to `c` says. -/
structure Reports (b : Broker σ α) (report : TickReport α) (c : Broker σ α) : Prop where
  active : b.finished = false
  tradeLog : c.tradeLog = b.tradeLog ++ report.executed
  values : c.values = b.values ++ report.value.toList
  value : ∀ value, report.value = some value → c.value = .ok value
  now : report.now = c.now
  finished : report.finished = c.finished
  ended : report.finished = true ↔ report.value = none
  submitted : report.submitted = (b.acknowledging .tick).length
  executed : report.executed = executionsIn (b.applying .tick)
  inserted : report.inserted = (placementsIn (b.applying .tick)).map (·.1)
  fresh : b.held = none → c.insertedLastTick = report.inserted
  resumed : b.held ≠ none →
    report.submitted = 0 ∧ c.insertedLastTick = b.insertedLastTick ++ report.inserted

/-- Why a tick fails, with the executions that it has applied before. -/
inductive Fails (b : Broker σ α) : BrokerFault α → List (Execution α) → Prop
  | late (hfinished : b.finished = true) : b.Fails (.finished .tick) []
  /-- There was no step to apply. -/
  | early (fault : BrokerFault α) (hbreak : b.Breakdown fault) : b.Fails fault []
  /-- The account cannot follow an item. -/
  | item (step : Step α) (done rest : List (StepItem α)) (i : StepItem α)
    (cause : Discrepancy α) (c : Broker σ α) (hoffered : b.Offered step)
    (hitems : step.items = done ++ i :: rest) (hdone : feed takeItem b.due.2 done = (c, none))
    (hfault : c.takeItem i = .error cause) : b.Fails (.ofDiscrepancy cause) (executionsIn done)
  /-- All items are applied, and a holding has no quote. -/
  | stale (step : Step α) (symbol : Symbol) (c : Broker σ α) (hoffered : b.Offered step)
    (hdone : feed takeItem b.due.2 step.items = (c, none))
    (hquote : c.account.ledger.value step.quotes = .error symbol) :
    b.Fails (.staleQuote symbol) step.executed

/-- Only a failure within a step leaves executions applied. -/
theorem Fails.within {b : Broker σ α} {fault : BrokerFault α} {applied : List (Execution α)}
    (h : b.Fails fault applied) (hsome : applied ≠ []) :
    (∃ cause, fault = .insolvent cause) ∨ (∃ cause, fault = .desync cause) ∨
      ∃ symbol, fault = .staleQuote symbol := by
  cases h with
  | late | early => exact absurd rfl hsome
  | item step done rest i cause c =>
    cases cause with
    | insolvent cause => exact .inl ⟨cause, rfl⟩
    | desync cause => exact .inr (.inl ⟨cause, rfl⟩)
  | stale step symbol => exact .inr (.inr ⟨symbol, rfl⟩)

omit [Service σ α] in
theorem value_of_ledger {b : Broker σ α} {value : α}
    (h : b.account.ledger.value b.quotes = .ok value) : b.value = .ok value := by
  unfold Broker.value
  rw [h]

omit [Service σ α] in
/-- A step that is completed is reported as it was applied. -/
theorem applyStep_reports {b : Broker σ α} {step : Step α} {report done : TickReport α}
    (hvalue : report.value = none) (hopen : report.finished = false)
    (hactive : b.finished = false) (h : (b.applyStep step report).1 = .ok done) :
    let c := (b.applyStep step report).2
    done.submitted = report.submitted ∧ done.executed = step.executed ∧
      done.inserted = step.inserted.map (·.1) ∧
      c.tradeLog = b.tradeLog ++ done.executed ∧
      c.insertedLastTick = b.insertedLastTick ++ done.inserted ∧
      c.values = b.values ++ done.value.toList ∧
      (∀ value, done.value = some value → c.value = .ok value) ∧ done.now = c.now ∧
      done.finished = c.finished ∧ (done.finished = true ↔ done.value = none) ∧
      taken takeItem b step.items = step.items := by
  intro c
  rcases b.applyStep_cases step report with ⟨first, i, rest, cause, d, -, -, -, ha⟩ | ⟨d, hf, ha⟩
  · rw [ha] at h
    cases h
  · obtain ⟨hlog, hinserted⟩ := feed_logs hf
    obtain ⟨htaken, -⟩ := taken_stuck_all hf
    have hframe := feed_frame hf
    rw [Step.executionsIn_items] at hlog
    rw [Step.placementsIn_items] at hinserted
    have hc : c = (d.conclude step _).2 := congrArg Prod.snd ha
    rw [ha] at h
    rcases d.conclude_cases step _ with ⟨-, hd⟩ | ⟨-, symbol, -, hd⟩ | ⟨-, value, hledger, hd⟩
    · rw [hd] at h hc
      cases h
      rw [hc]
      refine ⟨rfl, rfl, rfl, hlog, hinserted, ?_, ?_, rfl, rfl, ?_, htaken⟩
      · show d.values = b.values ++ report.value.toList
        rw [hvalue, hframe.values]
        exact (List.append_nil _).symm
      · intro value hsome
        rw [show report.value = some value from hsome] at hvalue
        cases hvalue
      · exact ⟨fun _ => hvalue, fun _ => rfl⟩
    · rw [hd] at h
      cases h
    · rw [hd] at h hc
      cases h
      rw [hc]
      refine ⟨rfl, rfl, rfl, hlog, hinserted, ?_, ?_, rfl, ?_, ?_, htaken⟩
      · show d.values ++ [value] = b.values ++ [value]
        rw [hframe.values]
      · intro other hsome
        cases hsome
        exact value_of_ledger hledger
      · show report.finished = d.finished
        rw [hopen, hframe.finished, hactive]
      · constructor
        · intro hfinished
          rw [show report.finished = true from hfinished] at hopen
          cases hopen
        · intro hnone
          cases hnone

/-! ### A tick -/

theorem acknowledging_of_held {b : Broker σ α} {step : Step α} (hheld : b.held = some step) :
    b.acknowledging .tick = [] := by
  have hstale : (b.finished || b.held.isSome) = true := by
    rw [hheld]
    exact Bool.or_true _
  unfold acknowledging
  rw [asking_stale hstale]
  rfl

/-- If the tick gets past its submission, all accepted orders are taken. -/
theorem acknowledging_fresh {b : Broker σ α} (hactive : b.finished = false)
    (hfree : b.held = none) (htaken : b.submission.1 = .ok ()) :
    b.acknowledging .tick = b.accepted := by
  unfold acknowledging
  rcases asking_fresh hactive hfree with ⟨hnone, -, hasking⟩ | ⟨-, -, hasking⟩ |
    ⟨-, fault, hlost, -⟩
  · rw [hasking, hnone]
    rfl
  · rw [hasking]
    exact List.append_nil _
  · rw [htaken] at hlost
    cases hlost

theorem applying_of_due {b c : Broker σ α} {step : Step α} {report : TickReport α}
    (h : b.due = (.ok (step, report), c)) : b.applying .tick = taken takeItem c step.items := by
  unfold applying
  rw [h]

/-- **The report of a tick accounts for what the tick has added.** -/
theorem tick_reports {b : Broker σ α} {report : TickReport α} (h : b.tick.1 = .ok report) :
    b.Reports report b.tick.2 := by
  have hkept := b.due_keeps (fun b => (b.finished, b.tradeLog, b.values)) (fun _ _ _ => rfl)
    (fun _ _ => rfl)
  rw [tick_eq] at h ⊢
  rcases hd : b.due with ⟨fault | ⟨step, begun⟩, c⟩
  · rw [hd] at h
    cases h
  · rw [hd] at h hkept
    obtain ⟨hfinished, hkept⟩ := Prod.mk.inj hkept
    obtain ⟨hlog, hvalues⟩ := Prod.mk.inj hkept
    obtain ⟨hactive, horigin⟩ := due_ok hd
    have hbegun : begun.value = none ∧ begun.finished = false := by
      rcases horigin with ⟨-, rfl, -⟩ | ⟨-, rfl, -⟩ <;> exact ⟨rfl, rfl⟩
    obtain ⟨hsubmitted, hexecuted, hinserted, hlogged, hresting, hentered, hvalue, hnow, hended,
      hlast, htaken⟩ := applyStep_reports hbegun.1 hbegun.2 (hfinished.trans hactive) h
    have happlying : b.applying .tick = step.items := (applying_of_due hd).trans htaken
    refine {
      active := hactive
      tradeLog := hlogged.trans (by rw [hlog])
      values := hentered.trans (by rw [hvalues])
      value := hvalue
      now := hnow
      finished := hended
      ended := hlast
      executed := by rw [happlying, Step.executionsIn_items, hexecuted]
      inserted := by rw [happlying, Step.placementsIn_items, hinserted]
      submitted := ?_
      fresh := fun hfree => ?_
      resumed := fun hheld => ?_ }
    · rw [hsubmitted]
      rcases horigin with ⟨hheld, rfl, -⟩ | ⟨hfree, rfl, reply, s, hdelivery, -, -⟩
      · rw [acknowledging_of_held hheld]
        rfl
      · obtain ⟨t, hsubmission, -⟩ := submission_of_delivery hdelivery
        rw [acknowledging_fresh hactive hfree (by rw [hsubmission]), ← sifted_accepted]
        rfl
    · rcases horigin with ⟨hheld, -, -⟩ | ⟨-, -, reply, s, -, -, rfl⟩
      · rw [hheld] at hfree
        cases hfree
      · exact hresting
    · rcases horigin with ⟨-, rfl, rfl⟩ | ⟨hfree, -⟩
      · exact ⟨hsubmitted, hresting⟩
      · exact absurd hfree hheld

/-- **A tick that fails** enters no value, and what it adds to the log are the executions
that it has applied before it failed. -/
theorem tick_fails {b : Broker σ α} {fault : BrokerFault α} (h : b.tick.1 = .error fault) :
    b.tick.2.values = b.values ∧
      ∃ applied, b.Fails fault applied ∧ b.tick.2.tradeLog = b.tradeLog ++ applied := by
  have hkept := b.due_keeps (fun b => (b.tradeLog, b.values)) (fun _ _ _ => rfl) (fun _ _ => rfl)
  rw [tick_eq] at h ⊢
  rcases hd : b.due with ⟨early | ⟨step, report⟩, c⟩
  · rw [hd] at h hkept
    cases h
    obtain ⟨hlog, hvalues⟩ := Prod.mk.inj hkept
    refine ⟨hvalues, [], ?_, hlog.trans (List.append_nil _).symm⟩
    cases hactive : b.finished with
    | true =>
      rw [due_finished hactive] at hd
      cases hd
      exact .late hactive
    | false => exact .early fault (breakdown_of_due hactive hd).2
  · rw [hd] at h hkept
    obtain ⟨hlog, hvalues⟩ := Prod.mk.inj hkept
    have hdue : b.due.2 = c := by rw [hd]
    simp only at h ⊢
    rcases c.applyStep_cases step report with
      ⟨done, i, rest, cause, d, hitems, hf, hi, ha⟩ | ⟨d, hf, ha⟩
    · rw [ha] at h ⊢
      cases h
      refine ⟨(feed_frame hf).values.trans hvalues, _, .item step done rest i cause d
        (offered_of_due hd) hitems (by rw [hdue]; exact hf) hi, ?_⟩
      exact (feed_logs hf).1.trans (by rw [hlog])
    · rw [ha] at h ⊢
      rcases d.conclude_cases step _ with ⟨-, hc⟩ | ⟨-, symbol, hquote, hc⟩ | ⟨-, value, -, hc⟩
      · rw [hc] at h
        cases h
      · rw [hc] at h ⊢
        cases h
        refine ⟨(feed_frame hf).values.trans hvalues, _, .stale step symbol d (offered_of_due hd)
          (by rw [hdue]; exact hf) hquote, ?_⟩
        exact (feed_logs hf).1.trans (by rw [hlog, Step.executionsIn_items])
      · rw [hc] at h
        cases h

/-- The trade log and the values of `b` are the first of those of `c`. -/
structure Extends (b c : Broker σ α) : Prop where
  tradeLog : b.tradeLog <+: c.tradeLog
  values : b.values <+: c.values

theorem tick_extends (b : Broker σ α) : b.Extends b.tick.2 := by
  rcases h : b.tick.1 with fault | report
  · obtain ⟨hvalues, applied, -, hlog⟩ := tick_fails h
    exact ⟨⟨applied, hlog.symm⟩, ⟨[], by rw [hvalues, List.append_nil]⟩⟩
  · have hreports := tick_reports h
    exact ⟨⟨_, hreports.tradeLog.symm⟩, ⟨_, hreports.values.symm⟩⟩

theorem operated_extends (b : Broker σ α) (ops : List (Operation σ α)) :
    b.Extends (b.operated ops) := by
  refine operated_invariant (P := b.Extends) (fun c made hc => ?_) (fun _ _ hc => ⟨hc.1, hc.2⟩) ops
    ⟨List.prefix_rfl, List.prefix_rfl⟩
  cases made with
  | insert order =>
    show b.Extends (c.insert order).2
    rcases c.insert_eq order with h | h <;> rw [h] <;> exact ⟨hc.1, hc.2⟩
  | tick =>
    have hmore := c.tick_extends
    exact ⟨hc.tradeLog.trans hmore.tradeLog, hc.values.trans hmore.values⟩

/-- **Reports account for the histories.** Whatever is done with a broker, its trade log
and its values are only added to. A tick that is completed has added the executions of its
report to the log and the value of its report, if there is one, to the values, and the
report tells the value of the account, the clock and the end of the session as they are
then, the size of the batch that the service took and the orders that came to rest. A tick
that fails has entered no value; it has logged the executions that it applied before it
failed, and if there are any, the fault is an insolvency, an item that the account cannot
follow or a holding without a quote. -/
theorem reports_account_for_histories (b : Broker σ α) :
    (∀ ops : List (Operation σ α), b.Extends (b.operated ops)) ∧
    (∀ report, b.tick.1 = .ok report → b.Reports report b.tick.2) ∧
    (∀ fault, b.tick.1 = .error fault → b.tick.2.values = b.values ∧
      (∃ applied, b.Fails fault applied ∧ b.tick.2.tradeLog = b.tradeLog ++ applied) ∧
      (b.tick.2.tradeLog ≠ b.tradeLog → (∃ cause, fault = .insolvent cause) ∨
        (∃ cause, fault = .desync cause) ∨ ∃ symbol, fault = .staleQuote symbol)) := by
  refine ⟨b.operated_extends, fun report h => tick_reports h, fun fault h => ?_⟩
  obtain ⟨hvalues, applied, hfails, hlog⟩ := tick_fails h
  refine ⟨hvalues, ⟨applied, hfails, hlog⟩, fun hgrown => hfails.within fun hnone => hgrown ?_⟩
  rw [hlog, hnone, List.append_nil]

/-- The third tick of the sample session completes the step that the first has begun. -/
theorem sample_reports_account :
    ∃ report, (sampleBroker.operated [.call .tick, .call .tick]).tick.1 = .ok report ∧
      (sampleBroker.operated [.call .tick, .call .tick]).Reports report
        (sampleBroker.operated [.call .tick, .call .tick]).tick.2 ∧
      report.value = some 1000 := by
  obtain ⟨-, hreports, -⟩ :=
    reports_account_for_histories (sampleBroker.operated [.call .tick, .call .tick])
  have hvalue : ((sampleBroker.operated [.call .tick, .call .tick]).tick.1.toOption.bind
      (·.value)) = some 1000 := by
    decide +kernel
  rcases h : (sampleBroker.operated [.call .tick, .call .tick]).tick.1 with fault | report
  · rw [h] at hvalue
    cases hvalue
  · rw [h] at hvalue
    exact ⟨report, rfl, hreports report h, hvalue⟩

end Broker
end Brokerage
