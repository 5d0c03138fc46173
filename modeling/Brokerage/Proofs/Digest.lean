/-
# What a tick comes to

The journal only ever grows, and nothing is decided by it (`Broker.tick_recalling`);
what a report tells of the orders that were sent has no part in what becomes of a step
(`Broker.applyStep_plain`). Leave both aside, and a fresh tick is decided by the
service's reply and by the broker as it is without its pending orders
(`Broker.digest_fresh`).

Key definitions: `Broker.recalling`, `Broker.quiet`, `TickReport.plain`, `digest`,
`Broker.reply`.
Key theorems: `Broker.tick_recalling`, `Broker.applyStep_plain`,
`Broker.digest_tick`, `Broker.digest_fresh`.
-/
import Brokerage.Proofs.Frame

namespace Brokerage

variable {σ α : Type} [Amount α]

/-- The report without what it tells of the orders that were sent. -/
def TickReport.plain (report : TickReport α) : TickReport α :=
  { report with submitted := 0, rejected := [] }

namespace Broker

/-- The broker with earlier events in its journal. -/
def recalling (b : Broker σ α) (events : List (Event α)) : Broker σ α :=
  { b with journal := events ++ b.journal }

/-- The broker with its journal left aside. -/
def quiet (b : Broker σ α) : Broker σ α :=
  { b with journal := [] }

theorem quiet_recalling (b : Broker σ α) : b.quiet.recalling b.journal = b := by
  unfold recalling quiet
  rw [List.append_nil]

/-! ### The journal decides nothing -/

theorem note_recalling (b : Broker σ α) (events more : List (Event α)) :
    (b.recalling events).note more = (b.note more).recalling events := by
  unfold recalling note
  rw [List.append_assoc]

theorem book_recalling (b : Broker σ α) (events : List (Event α)) (a : Account α) :
    ∀ i : StepItem α, (b.recalling events).book a i = (b.book a i).recalling events
  | .execution e =>
    note_recalling { b with account := a, tradeLog := b.tradeLog ++ [e] } events _
  | .placement id _ =>
    note_recalling { b with account := a, insertedLastTick := b.insertedLastTick ++ [id] }
      events _

theorem takeItem_recalling (events : List (Event α)) (b : Broker σ α) (i : StepItem α) :
    (b.recalling events).takeItem i = (b.takeItem i).map (·.recalling events) := by
  have haccount : (b.recalling events).account = b.account := rfl
  rw [takeItem_eq, takeItem_eq, haccount]
  cases b.account.take i with
  | error cause => rfl
  | ok a => exact congrArg Except.ok (b.book_recalling events a i)

theorem conclude_recalling (b : Broker σ α) (events : List (Event α)) (step : Step α)
    (report : TickReport α) : (b.recalling events).conclude step report =
      ((b.conclude step report).1, (b.conclude step report).2.recalling events) := by
  have hledger : (b.recalling events).account.ledger = b.account.ledger := rfl
  unfold conclude
  cases step.hasNext with
  | false => exact Prod.ext rfl (note_recalling { b with finished := true } events _)
  | true =>
    simp only [hledger, Bool.not_true, Bool.false_eq_true, if_false]
    cases b.account.ledger.value step.quotes with
    | error symbol => rfl
    | ok value =>
      exact Prod.ext rfl
        (note_recalling { b.adopt step with values := b.values ++ [value] } events _)

theorem applyStep_recalling (b : Broker σ α) (events : List (Event α)) (step : Step α)
    (report : TickReport α) : (b.recalling events).applyStep step report =
      ((b.applyStep step report).1, (b.applyStep step report).2.recalling events) := by
  rw [applyStep_eq, applyStep_eq, feed_hom (takeItem_recalling events) step.items b]
  rcases feed takeItem b step.items with ⟨c, _ | ⟨cause, rest⟩⟩
  · exact conclude_recalling c events step _
  · rfl

section

variable [Service σ α]

/-- The reply to a fresh tick, or the fault that there is without one. -/
def reply (b : Broker σ α) : Except (BrokerFault α) (StepReply α) × σ :=
  match b.submission with
  | (.error cause, s) => (.error (.ofService cause b.sifted.accepted), s)
  | (.ok (), s) =>
    match Service.nextStep b.session s with
    | (.error cause, s) => (.error (.ofService cause []), s)
    | (.ok reply, s) => (.ok reply, s)

/-- A fresh tick goes by the reply. -/
theorem due_of_reply {b : Broker σ α} (hactive : b.finished = false) (hfree : b.held = none) :
    b.due = match b.reply with
      | (.error fault, s) => (.error fault, { b.sent with service := s })
      | (.ok reply, s) =>
        match reply.check with
        | .error defect => (.error (.protocol (.malformed defect)), { b.sent with service := s })
        | .ok step => (.ok (step, b.sendReport), b.begun s) := by
  unfold due reply
  rw [hactive, hfree]
  simp only [Bool.false_eq_true, if_false]
  rcases b.submission with ⟨cause | _, s⟩
  · rfl
  · simp only
    rcases Service.nextStep (α := α) b.session s with ⟨cause | reply, t⟩
    · rfl
    · rfl

theorem tick_recalling (b : Broker σ α) (events : List (Event α)) :
    (b.recalling events).tick = (b.tick.1, b.tick.2.recalling events) := by
  have hdue : (b.recalling events).due = (b.due.1, b.due.2.recalling events) := by
    cases hactive : b.finished with
    | true =>
      rw [due_finished hactive, due_finished (b := b.recalling events) hactive]
    | false =>
      cases hheld : b.held with
      | some step =>
        rw [due_resumed hactive hheld, due_resumed (b := b.recalling events) hactive hheld]
        rfl
      | none =>
        have hreply : (b.recalling events).reply = b.reply := rfl
        have hsent : (b.recalling events).sent = b.sent.recalling events := by
          unfold sent recalling
          exact congrArg
            (fun journal => { b with account := b.account.buffering [], journal := journal })
            (List.append_assoc _ _ _)
        have hreport : (b.recalling events).sendReport = b.sendReport := rfl
        have hbegun : ∀ s, (b.recalling events).begun s = (b.begun s).recalling events := by
          intro s
          unfold begun
          rw [hsent]
          rfl
        rw [due_of_reply hactive hheld, due_of_reply (b := b.recalling events) hactive hheld,
          hreply, hreport, hsent]
        rcases b.reply with ⟨fault | reply, s⟩
        · rfl
        · simp only [hbegun]
          cases reply.check <;> rfl
  rw [tick_eq, tick_eq, hdue]
  rcases b.due with ⟨fault | ⟨step, report⟩, c⟩
  · rfl
  · exact applyStep_recalling c events step report

end

/-! ### The orders that were sent have no part in a step -/

theorem conclude_plain (b : Broker σ α) (step : Step α) (report : TickReport α) :
    b.conclude step report.plain =
      ((b.conclude step report).1.map TickReport.plain, (b.conclude step report).2) := by
  unfold conclude
  cases step.hasNext with
  | false => rfl
  | true =>
    simp only [Bool.not_true, Bool.false_eq_true, if_false]
    cases b.account.ledger.value step.quotes <;> rfl

theorem applyStep_plain (b : Broker σ α) (step : Step α) (report : TickReport α) :
    b.applyStep step report.plain =
      ((b.applyStep step report).1.map TickReport.plain, (b.applyStep step report).2) := by
  rw [applyStep_eq, applyStep_eq]
  rcases feed takeItem b step.items with ⟨c, _ | ⟨cause, rest⟩⟩
  · exact conclude_plain c step
      { report with executed := step.executed, inserted := step.inserted.map (·.1) }
  · rfl

/-! ### The digest of a tick -/

/-- What a tick comes to: its outcome, but for the orders that were sent, and the
broker after it, but for the journal. -/
def digest (tick : Except (BrokerFault α) (TickReport α) × Broker σ α) :
    Except (BrokerFault α) (TickReport α) × Broker σ α :=
  (tick.1.map TickReport.plain, tick.2.quiet)

theorem digest_applyStep {b c : Broker σ α} (h : b.quiet = c.quiet) (step : Step α)
    {report report' : TickReport α} (hreport : report.plain = report'.plain) :
    digest (b.applyStep step report) = digest (c.applyStep step report') := by
  have hquiet : ∀ (b : Broker σ α) (report : TickReport α),
      digest (b.applyStep step report) =
        ((b.quiet.applyStep step report.plain).1, (b.quiet.applyStep step report.plain).2.quiet) := by
    intro b report
    have hrecall := applyStep_recalling b.quiet b.journal step report
    rw [quiet_recalling] at hrecall
    rw [hrecall, applyStep_plain]
    rfl
  rw [hquiet, hquiet, h, hreport]

variable [Service σ α]

/-- Brokers that differ in their journals come to the same. -/
theorem digest_tick {b c : Broker σ α} (h : b.quiet = c.quiet) : digest b.tick = digest c.tick := by
  have hquiet : ∀ b : Broker σ α, digest b.tick = digest b.quiet.tick := by
    intro b
    have hrecall := tick_recalling b.quiet b.journal
    rw [quiet_recalling] at hrecall
    rw [hrecall]
    rfl
  rw [hquiet b, hquiet c, h]

/-- **A fresh tick** comes to the same on the same reply, whatever orders were
pending. -/
theorem digest_fresh {b c : Broker σ α} (hb : b.finished = false ∧ b.held = none)
    (hc : c.finished = false ∧ c.held = none)
    (h : ∀ s : σ, (b.recast s []).quiet = (c.recast s []).quiet) (hreply : b.reply = c.reply) :
    digest b.tick = digest c.tick := by
  have hsent : ∀ s, ({ b.sent with service := s } : Broker σ α).quiet =
      ({ c.sent with service := s } : Broker σ α).quiet := h
  have hbegun : ∀ s, (b.begun s).quiet = (c.begun s).quiet := by
    intro s
    exact congrArg (fun b => { b with insertedLastTick := [] }) (h s)
  rw [tick_eq, tick_eq, due_of_reply hb.1 hb.2, due_of_reply hc.1 hc.2, hreply]
  rcases c.reply with ⟨fault | reply, s⟩
  · exact Prod.ext rfl (hsent s)
  · simp only
    cases reply.check with
    | error defect => exact Prod.ext rfl (hsent s)
    | ok step => exact digest_applyStep (hbegun s) step rfl

end Broker
end Brokerage
