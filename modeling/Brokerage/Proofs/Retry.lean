/-
# Ticks that can be tried again

A tick that fails with a transport or protocol fault has not begun to apply a
step: the submission failed, the fetch failed, or the reply is defective, and
these are the only ways to such a fault (`Broker.retryable_iff`). The broker is
then as it was, except that the pending orders were taken out.

Key definitions: `Broker.Breakdown`, `Broker.Untouched`.
Key theorems: `Broker.applyStep_not_retryable`, `Broker.retryable_iff`,
`Broker.retryable_tick_changes_nothing`.
-/
import Brokerage.Proofs.Exact
import Brokerage.Proofs.Frame
import Brokerage.Proofs.Reply

namespace Brokerage
namespace Broker

variable {σ α : Type} [Amount α]

/-- `c` differs from `b` in nothing that a step or the sending of orders is about,
but in that no order is pending. -/
structure Untouched (b c : Broker σ α) : Prop where
  ledger : c.account.ledger = b.account.ledger
  resting : c.account.blotter.resting = b.account.blotter.resting
  quotes : c.quotes = b.quotes
  depths : c.depths = b.depths
  now : c.now = b.now
  tradeLog : c.tradeLog = b.tradeLog
  inserted : c.insertedLastTick = b.insertedLastTick
  values : c.values = b.values
  active : c.finished = false
  held : c.held = none
  pending : c.account.blotter.pending = []

/-- Applying a step fails because of an item or of a missing quote. -/
theorem applyStep_not_retryable {b : Broker σ α} {step : Step α} {report : TickReport α}
    {fault : BrokerFault α} (h : (b.applyStep step report).1 = .error fault) :
    fault.retryable = false := by
  rcases b.applyStep_cases step report with ⟨done, i, rest, cause, c, -, -, -, ha⟩ | ⟨c, -, ha⟩
  · rw [ha] at h
    cases h
    cases cause <;> rfl
  · rw [ha] at h
    rcases c.conclude_outcome step _ with ⟨done, hc⟩ | ⟨symbol, hc⟩
    · rw [hc] at h
      cases h
    · rw [hc] at h
      cases h
      rfl

section

variable [Service σ α]

/-- What keeps a fresh tick from getting a step, and the fault that it causes. -/
inductive Breakdown (b : Broker σ α) (fault : BrokerFault α) : Prop where
  /-- The accepted orders come back, the oldest first. -/
  | unsent (cause : ServiceFault) (s : σ) (hsome : b.accepted ≠ [])
      (hsubmit : Service.submit b.session b.accepted b.service = (.error cause, s))
      (hfault : fault = .ofService cause b.accepted)
  | unfetched (cause : ServiceFault) (s t : σ) (hsubmit : b.submission = (.ok (), s))
      (hnext : Service.nextStep b.session s = (.error cause, t))
      (hfault : fault = .ofService cause [])
  | malformed (reply : StepReply α) (s : σ) (defect : StepDefect α)
      (hdelivery : b.delivery = (.ok reply, s)) (hdefective : reply.Defective)
      (hcheck : reply.check = .error defect) (hfault : fault = .protocol (.malformed defect))

theorem submission_error_iff {b : Broker σ α} {cause : ServiceFault} {s : σ} :
    b.submission = (.error cause, s) ↔
      b.accepted ≠ [] ∧ Service.submit b.session b.accepted b.service = (.error cause, s) := by
  unfold submission
  rw [sifted_accepted]
  cases b.accepted with
  | nil => exact ⟨fun h => (by cases h), fun h => absurd rfl h.1⟩
  | cons order orders => exact ⟨fun h => ⟨List.cons_ne_nil _ _, h⟩, fun h => h.2⟩

theorem Breakdown.retryable {b : Broker σ α} {fault : BrokerFault α} (h : b.Breakdown fault) :
    fault.retryable = true := by
  cases h with
  | unsent cause _ _ _ hfault | unfetched cause _ _ _ _ hfault =>
    rw [hfault]
    cases cause <;> rfl
  | malformed _ _ _ _ _ _ hfault => rw [hfault]; rfl

/-- After a breakdown only the sending of the orders has left its mark. -/
theorem Breakdown.due {b : Broker σ α} (hactive : b.finished = false) (hfree : b.held = none)
    {fault : BrokerFault α} (h : b.Breakdown fault) :
    ∃ s, b.due = (.error fault, { b.sent with service := s }) := by
  cases h with
  | unsent cause s hsome hsubmit hfault =>
    refine ⟨s, ?_⟩
    have hs := submission_error_iff.mpr ⟨hsome, hsubmit⟩
    unfold Broker.due
    rw [hactive, hfree, hfault, ← sifted_accepted]
    simp only [Bool.false_eq_true, if_false, hs]
  | unfetched cause s t hsubmit hnext hfault =>
    refine ⟨t, ?_⟩
    unfold Broker.due
    rw [hactive, hfree, hfault]
    simp only [Bool.false_eq_true, if_false, hsubmit, hnext]
  | malformed reply s defect hdelivery _ hcheck hfault =>
    refine ⟨s, ?_⟩
    rw [due_of_delivery hactive hfree hdelivery, hcheck, hfault]

/-- A tick that gets no step has met a breakdown. -/
theorem breakdown_of_due {b c : Broker σ α} (hactive : b.finished = false) {fault : BrokerFault α}
    (h : b.due = (.error fault, c)) : b.held = none ∧ b.Breakdown fault := by
  rcases due_error h with ⟨hfinished, -, -⟩ | ⟨-, hfree, s, -, hcause⟩
  · rw [hactive] at hfinished
    cases hfinished
  · refine ⟨hfree, ?_⟩
    rcases hcause with ⟨cause, hs, hfault⟩ | ⟨cause, t, hs, hd, hfault⟩ |
      ⟨reply, defect, hd, hcheck, hfault⟩
    · obtain ⟨hsome, hsubmit⟩ := submission_error_iff.mp hs
      rw [sifted_accepted] at hfault
      exact .unsent cause s hsome hsubmit hfault
    · unfold delivery at hd
      rw [hs] at hd
      exact .unfetched cause t s hs hd hfault
    · exact .malformed reply s defect hd (reply.check_error_iff.mp ⟨defect, hcheck⟩) hcheck hfault

/-- **A fault that can be retried** is the fault of a breakdown. -/
theorem retryable_iff {b : Broker σ α} (hactive : b.finished = false) (fault : BrokerFault α) :
    (b.tick.1 = .error fault ∧ fault.retryable = true) ↔ b.held = none ∧ b.Breakdown fault := by
  rw [tick_eq]
  constructor
  · rintro ⟨h, hretry⟩
    rcases hd : b.due with ⟨fault' | ⟨step, report⟩, c⟩
    · rw [hd] at h
      cases h
      exact breakdown_of_due hactive hd
    · rw [hd] at h
      rw [applyStep_not_retryable h] at hretry
      cases hretry
  · rintro ⟨hfree, hbreak⟩
    obtain ⟨s, hd⟩ := hbreak.due hactive hfree
    rw [hd]
    exact ⟨rfl, hbreak.retryable⟩

theorem untouched_of_breakdown {b : Broker σ α} (hactive : b.finished = false)
    (hfree : b.held = none) {fault : BrokerFault α} (h : b.Breakdown fault) :
    Untouched b b.tick.2 := by
  obtain ⟨s, hd⟩ := h.due hactive hfree
  rw [tick_eq, hd]
  exact {
    ledger := rfl
    resting := rfl
    quotes := rfl
    depths := rfl
    now := rfl
    tradeLog := rfl
    inserted := rfl
    values := rfl
    active := hactive
    held := hfree
    pending := rfl }

/-- A delivered reply breaks the tick down only if it is defective. -/
theorem Breakdown.defective {b : Broker σ α} {reply : StepReply α} {s : σ}
    (hdelivery : b.delivery = (.ok reply, s)) {fault : BrokerFault α} (h : b.Breakdown fault) :
    reply.Defective := by
  cases h with
  | unsent cause t hsome hsubmit _ =>
    unfold delivery at hdelivery
    rw [submission_error_iff.mpr ⟨hsome, hsubmit⟩] at hdelivery
    cases hdelivery
  | unfetched cause t u hsubmit hnext _ =>
    unfold delivery at hdelivery
    rw [hsubmit] at hdelivery
    simp only at hdelivery
    rw [hnext] at hdelivery
    cases hdelivery
  | malformed other t defect hother hdefective _ _ =>
    rw [hother] at hdelivery
    cases hdelivery
    exact hdefective

/-- **A tick that can be retried has changed nothing** but that the pending orders
were taken out. It fails in this way when the submission fails, and then a
transport fault hands the accepted orders back, the oldest first; when the fetch
fails, and then none is handed back; when the reply is defective, wherever in it
the defect is; and in no other case. In particular it does not if the reply has no
defect or a step was held. -/
theorem retryable_tick_changes_nothing {b : Broker σ α} (hactive : b.finished = false) :
    (∀ fault, b.tick.1 = .error fault → fault.retryable = true → Untouched b b.tick.2) ∧
    (∀ fault, (b.tick.1 = .error fault ∧ fault.retryable = true) ↔
      b.held = none ∧ b.Breakdown fault) ∧
    (∀ reply s, b.held = none → b.delivery = (.ok reply, s) →
      ((∃ fault, b.tick.1 = .error fault ∧ fault.retryable = true) ↔ reply.Defective)) ∧
    (∀ step, b.held = some step → ∀ fault, b.tick.1 = .error fault → fault.retryable = false) := by
  refine ⟨fun fault h hretry => ?_, retryable_iff hactive, fun reply s hfree hdelivery => ?_,
    fun step hheld fault h => ?_⟩
  · obtain ⟨hfree, hbreak⟩ := (retryable_iff hactive fault).mp ⟨h, hretry⟩
    exact untouched_of_breakdown hactive hfree hbreak
  · constructor
    · rintro ⟨fault, h⟩
      exact ((retryable_iff hactive fault).mp h).2.defective hdelivery
    · intro hdefective
      obtain ⟨defect, hcheck⟩ := reply.check_error_iff.mpr hdefective
      exact ⟨_, (retryable_iff hactive _).mpr
        ⟨hfree, .malformed reply s defect hdelivery hdefective hcheck rfl⟩⟩
  · cases hretry : fault.retryable with
    | false => rfl
    | true =>
      obtain ⟨hfree, -⟩ := (retryable_iff hactive fault).mp ⟨h, hretry⟩
      rw [hheld] at hfree
      cases hfree

end

/-- The sample session with an order pending and a service that cannot be reached. -/
def sampleOffline : Broker (ScriptedService Rat) Rat :=
  sampleBroker.recast (sampleBroker.service.failSubmit (.transport "offline")) [sampleOrder]

/-- The order comes back and the account is as it was. -/
theorem sample_retryable_tick : sampleOffline.finished = false ∧
    sampleOffline.tick.1 = .error (.transport "offline" [sampleOrder]) ∧
    Untouched sampleOffline sampleOffline.tick.2 := by
  obtain ⟨huntouched, hretry, -, -⟩ := retryable_tick_changes_nothing (b := sampleOffline) rfl
  have hbreak : sampleOffline.Breakdown (.transport "offline" [sampleOrder]) :=
    .unsent (.transport "offline") sampleBroker.service (List.cons_ne_nil _ _) rfl rfl
  obtain ⟨htick, hfault⟩ := (hretry _).mpr ⟨rfl, hbreak⟩
  exact ⟨rfl, htick, huntouched _ htick hfault⟩

end Broker
end Brokerage
