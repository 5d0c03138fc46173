/-
# The last step of a session

A reply without a next step is the last that a session asks for. Unless it is
defective, the tick that fetched it ends the session or, if an item fails, holds what
is left of it, and from then on the broker stays on this step
(`Broker.onLastStep_perform`): there is no other way to it
(`Broker.fetched_of_onLastStep`), and no way back. Orders are taken as long as the
session is not finished, but no tick sends them any more. So what is pending at the end
are the orders that came while the last step was held (`Broker.pending_at_the_end`).

Key definitions: `StepReply.EndsSession`, `Broker.OnLastStep`.
Key theorems: `Broker.applyStep_onLastStep`, `Broker.onLastStep_perform`,
`Broker.onLastStep_of_delivery`, `Broker.fetched_of_onLastStep`,
`Broker.onLastStep_reached`, `Broker.pending_at_the_end`.
-/
import Brokerage.Proofs.OrderFlow

namespace Brokerage

variable {σ α : Type} [Amount α]

/-- The reply can be applied, and there is no step after it. -/
def StepReply.EndsSession (r : StepReply α) : Prop :=
  r.hasNext = false ∧ ¬ r.Defective

theorem StepReply.endsSession_iff (r : StepReply α) :
    r.EndsSession ↔ ∃ step, r.check = .ok step ∧ step.hasNext = false := by
  unfold EndsSession
  rw [← r.check_error_iff]
  cases hcheck : r.check with
  | error defect =>
    exact ⟨fun h => absurd ⟨defect, rfl⟩ h.2, fun ⟨_, h, _⟩ => (by cases h)⟩
  | ok step =>
    have hnext : step.hasNext = r.hasNext := by rw [(check_ok hcheck).2.2]
    constructor
    · intro h
      exact ⟨step, rfl, hnext.trans h.1⟩
    · rintro ⟨other, hother, h⟩
      cases hother
      exact ⟨hnext.symm.trans h, fun ⟨_, h⟩ => by cases h⟩

namespace Broker

/-- The session is finished, or the rest of its last step is held. -/
def OnLastStep (b : Broker σ α) : Prop :=
  b.finished = true ∨ ∃ step, b.held = some step ∧ step.hasNext = false

theorem OnLastStep.stale {b : Broker σ α} (h : b.OnLastStep) :
    (b.finished || b.held.isSome) = true := by
  rcases h with hfinished | ⟨step, hheld, -⟩
  · rw [hfinished]
    rfl
  · rw [hheld]
    exact Bool.or_true _

theorem not_onLastStep {b : Broker σ α} (hactive : b.finished = false) (hfree : b.held = none) :
    ¬ b.OnLastStep := by
  rintro (hfinished | ⟨step, hheld, -⟩)
  · rw [hactive] at hfinished
    cases hfinished
  · rw [hfree] at hheld
    cases hheld

/-- **Applying a step leads to the last step** if and only if there is no step after
it, whatever items of it fail. -/
theorem applyStep_onLastStep (b : Broker σ α) (hactive : b.finished = false)
    (hfree : b.held = none) (step : Step α) (report : TickReport α) :
    (b.applyStep step report).2.OnLastStep ↔ step.hasNext = false := by
  rcases b.applyStep_cases step report with
    ⟨done, i, rest, cause, c, -, hfeed, -, ha⟩ | ⟨c, hfeed, ha⟩
  · have hopen : c.finished = false := (feed_frame hfeed).finished.trans hactive
    rw [ha]
    constructor
    · rintro (hfinished | ⟨held, hheld, hlast⟩)
      · cases hopen.symm.trans hfinished
      · cases hheld
        exact hlast
    · exact fun hlast => .inr ⟨step.keeping rest, rfl, hlast⟩
  · have hframe := feed_frame hfeed
    have hopen : ¬ c.OnLastStep :=
      not_onLastStep (hframe.finished.trans hactive) (hframe.held.trans hfree)
    rw [ha]
    rcases c.conclude_cases step _ with ⟨hlast, hc⟩ | ⟨hnext, symbol, -, hc⟩ | ⟨hnext, value, -, hc⟩
    · rw [hc]
      exact ⟨fun _ => hlast, fun _ => .inl rfl⟩
    · rw [hc, hnext]
      exact ⟨fun h => absurd h hopen, fun h => by cases h⟩
    · rw [hc, hnext]
      exact ⟨fun h => absurd h hopen, fun h => by cases h⟩

theorem insert_onLastStep (b : Broker σ α) (order : Order α) :
    (b.insert order).2.OnLastStep ↔ b.OnLastStep := by
  rcases b.insert_eq order with h | h
  · rw [h]
  · rw [h]
    rfl

theorem insert_finished {b : Broker σ α} (hfinished : b.finished = true) (order : Order α) :
    b.insert order = (.error (.finished .insertOrder), b) := by
  unfold insert
  rw [if_pos hfinished]

section

variable [Service σ α]

theorem tick_finished {b : Broker σ α} (hfinished : b.finished = true) :
    b.tick = (.error (.finished .tick), b) := by
  rw [tick_eq, due_finished hfinished]

/-- **From the last step there is no way back.** -/
theorem onLastStep_perform {b : Broker σ α} (h : b.OnLastStep) : ∀ call : Call α,
    (b.perform call).2.OnLastStep
  | .insert order => (b.insert_onLastStep order).mpr h
  | .tick => by
    show b.tick.2.OnLastStep
    cases hf : b.finished with
    | true =>
      rw [tick_finished hf]
      exact h
    | false =>
      obtain ⟨step, hheld, hlast⟩ := h.resolve_left (by rw [hf]; exact Bool.false_ne_true)
      rw [tick_eq, due_resumed hf hheld]
      exact (applyStep_onLastStep { b with held := none } hf rfl step blankReport).mpr hlast

/-- A reply that ends the session leads to the last step. -/
theorem onLastStep_of_delivery {b : Broker σ α} (hactive : b.finished = false)
    (hfree : b.held = none) {reply : StepReply α} (hreply : b.delivery.1 = .ok reply)
    (hends : reply.EndsSession) : b.tick.2.OnLastStep := by
  obtain ⟨step, hcheck, hlast⟩ := reply.endsSession_iff.mp hends
  have hdelivery : b.delivery = (.ok reply, b.delivery.2) := Prod.ext hreply rfl
  rw [tick_of_delivery hactive hfree hdelivery hcheck]
  exact (applyStep_onLastStep (b.begun b.delivery.2) hactive hfree step _).mpr hlast

/-- **The last step is fetched.** A call that leads to it is a fresh tick, and the reply
to it ends the session. -/
theorem fetched_of_onLastStep {b : Broker σ α} (hbefore : ¬ b.OnLastStep) : ∀ {call : Call α},
    (b.perform call).2.OnLastStep → call = .tick ∧ b.finished = false ∧ b.held = none ∧
      ∃ reply, b.delivery.1 = .ok reply ∧ reply.EndsSession
  | .insert order, h => absurd ((b.insert_onLastStep order).mp h) hbefore
  | .tick, h => by
    have hactive : b.finished = false := by
      cases hf : b.finished with
      | false => rfl
      | true => exact absurd (.inl hf) hbefore
    have hafter : b.tick.2.OnLastStep := h
    rw [tick_eq] at hafter
    rcases hd : b.due with ⟨fault | ⟨step, report⟩, c⟩
    · rw [hd] at hafter
      rcases due_error hd with ⟨hfinished, -⟩ | ⟨-, hfree, s, rfl, -⟩
      · exact absurd (.inl hfinished) hbefore
      · exact absurd hafter (not_onLastStep hactive hfree)
    · rw [hd] at hafter
      have hkept := b.due_keeps (·.finished) (fun _ _ _ => rfl) (fun _ _ => rfl)
      rw [hd, hactive] at hkept
      have hlast := (applyStep_onLastStep c hkept (due_held hd) step report).mp hafter
      rcases due_ok hd with ⟨-, ⟨hstep, -, rfl⟩ | ⟨hfree, -, reply, s, hdelivery, hcheck, rfl⟩⟩
      · exact absurd (.inr ⟨step, hstep, hlast⟩) hbefore
      · exact ⟨rfl, hactive, hfree, reply, by rw [hdelivery],
          reply.endsSession_iff.mpr ⟨step, hcheck, hlast⟩⟩

/-- A run that comes to the last step comes to it at one of its ticks. -/
theorem onLastStep_reached : ∀ (calls : List (Call α)) {b : Broker σ α}, ¬ b.OnLastStep →
    (b.after calls).OnLastStep → ∃ before since, calls = before ++ .tick :: since ∧
      (b.after before).finished = false ∧ (b.after before).held = none ∧
      (∃ reply, (b.after before).delivery.1 = .ok reply ∧ reply.EndsSession) ∧
      (b.after before).tick.2.OnLastStep
  | [], _, hbefore, h => absurd h hbefore
  | call :: calls, b, hbefore, h => by
    by_cases hcall : (b.perform call).2.OnLastStep
    · obtain ⟨rfl, hactive, hfree, hreply⟩ := fetched_of_onLastStep hbefore hcall
      exact ⟨[], calls, rfl, hactive, hfree, hreply, hcall⟩
    · obtain ⟨before, since, rfl, hfetched⟩ := onLastStep_reached calls hcall h
      exact ⟨call :: before, since, rfl, hfetched⟩

/-! ### What is pending at the end -/

theorem dispatches_onLastStep : ∀ (calls : List (Call α)) {b : Broker σ α}, b.OnLastStep →
    b.dispatches calls = []
  | [], _, _ => rfl
  | call :: calls, b, h => by
    have hnone : b.dispatch call = [] := by
      cases call with
      | insert order => rfl
      | tick => exact if_pos h.stale
    show b.dispatch call ++ (b.perform call).2.dispatches calls = []
    rw [hnone, dispatches_onLastStep calls (onLastStep_perform h call)]
    rfl

/-- On the last step orders are taken in but not sent. -/
theorem pending_onLastStep {b : Broker σ α} (h : b.OnLastStep) (calls : List (Call α)) :
    (b.after calls).account.blotter.pending = b.account.blotter.pending ++ b.intakes calls := by
  have hbalance := gather_balance perform_pending calls b
  rw [gather_flatMap] at hbalance
  have hnone : gather dispatch b calls = [] := dispatches_onLastStep calls h
  rw [hnone] at hbalance
  exact hbalance.symm

theorem intakes_finished : ∀ (calls : List (Call α)) {b : Broker σ α}, b.finished = true →
    b.intakes calls = []
  | [], _, _ => rfl
  | call :: calls, b, h => by
    have hstays : (b.perform call).2 = b ∧ b.intake call = [] := by
      cases call with
      | insert order =>
        have hinsert := insert_finished h order
        refine ⟨congrArg Prod.snd hinsert, ?_⟩
        simp only [intake, hinsert]
      | tick =>
        refine ⟨?_, rfl⟩
        show b.tick.2 = b
        rw [tick_finished h]
    show b.intake call ++ (b.perform call).2.intakes calls = []
    rw [hstays.1, hstays.2, intakes_finished calls h]
    rfl

/-- **What is pending at the end of a session** came while its last step was held. In
every run that finishes there is one tick that fetched the last step. All orders that
were accepted before it have been drained; those accepted after it are pending, since a
tick that goes on with a held step sends none. There are none of them if the tick that
fetched the last step has finished it as well. -/
theorem pending_at_the_end {setup : Setup α} {service : σ} {b : Broker σ α}
    (h : connect setup service = .ok b) {calls : List (Call α)}
    (hfinished : (b.after calls).finished = true) :
    ∃ before since, calls = before ++ .tick :: since ∧
      let c := b.after before
      c.finished = false ∧ c.held = none ∧
      (∃ reply, c.delivery.1 = .ok reply ∧ reply.EndsSession) ∧
      (b.dispatches calls).flatMap (·.drained) = b.intakes before ∧
      (b.after calls).account.blotter.pending = c.tick.2.intakes since ∧
      (c.tick.2.finished = true → (b.after calls).account.blotter.pending = []) := by
  obtain ⟨cash, -, -, haccount, -, hfree, hactive, -⟩ := connect_ok h
  obtain ⟨before, since, rfl, hcactive, hcfree, hreply, hlast⟩ :=
    onLastStep_reached calls (not_onLastStep hactive hfree) (.inl hfinished)
  have hsent : (b.after before).tick.2.account.blotter.pending = [] := by
    rw [(tick_after_due _).1, (due_fresh hcactive hcfree).1]
    rfl
  have hafter : b.after (before ++ .tick :: since) = (b.after before).tick.2.after since :=
    after_append b before _
  have hpending : (b.after (before ++ .tick :: since)).account.blotter.pending =
      (b.after before).tick.2.intakes since := by
    rw [hafter, pending_onLastStep hlast, hsent]
    rfl
  have hintakes : b.intakes (before ++ .tick :: since) =
      b.intakes before ++ (b.after before).tick.2.intakes since := gather_append intake b before _
  refine ⟨before, since, rfl, hcactive, hcfree, hreply, ?_, hpending, fun hdone => ?_⟩
  · have hbalance := gather_balance perform_pending (before ++ .tick :: since) b
    rw [gather_flatMap, haccount] at hbalance
    rw [hpending] at hbalance
    exact (List.append_cancel_right (hintakes.symm.trans hbalance)).symm
  · rw [hpending, intakes_finished since hdone]

end

/-- A last step with a buy that the cash does not cover. -/
def sampleOverdraft : StepReply Rat :=
  { sampleQuietReply with
    hasNext := false
    executed := [.bought sampleSymbol 2000 200 101 ⟨2⟩] }

/-- The session at a service with just this step. -/
def sampleOverdrawn : Broker (ScriptedService Rat) Rat :=
  sampleBroker.onto { sampleBroker.service with script := [sampleOverdraft] }

theorem connect_overdrawn :
    connect sampleSetup { sampleService with script := [sampleOverdraft] } = .ok sampleOverdrawn :=
  rfl

/-- The last step is held by the first tick and finished by the second. -/
theorem sample_pending_at_the_end :
    (sampleOverdrawn.after [.tick, .insert sampleOrder, .tick]).finished = true ∧
    ∃ before since, [.tick, .insert sampleOrder, .tick] = before ++ .tick :: since ∧
      (sampleOverdrawn.after [.tick, .insert sampleOrder, .tick]).account.blotter.pending =
        (sampleOverdrawn.after before).tick.2.intakes since := by
  have hfinished : (sampleOverdrawn.after [.tick, .insert sampleOrder, .tick]).finished = true := by
    decide +kernel
  obtain ⟨before, since, hcalls, -, -, -, -, hpending, -⟩ :=
    pending_at_the_end connect_overdrawn hfinished
  exact ⟨hfinished, before, since, hcalls, hpending⟩

/-- The order is accepted, and it is still pending when the session is finished. -/
theorem sample_order_stranded :
    sampleOverdrawn.intakes [.tick, .insert sampleOrder, .tick] = [sampleOrder] ∧
    (sampleOverdrawn.after [.tick, .insert sampleOrder, .tick]).finished = true ∧
    (sampleOverdrawn.after [.tick, .insert sampleOrder, .tick]).account.blotter.pending =
      [sampleOrder] := by
  decide +kernel

end Broker
end Brokerage
