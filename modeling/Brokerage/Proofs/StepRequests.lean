/-
# How often a replay asks for a step

A tick asks for a step at most once, but a round may make more than one tick, and a tick
whose step request got no answer is tried again like any other. So a round repeats a
step request for each answer that is lost, up to the retries
(`Broker.repeated_step_requests`). A reply that comes is reconciled as a whole or ends
the replay; of a step whose reply was lost on the way the replay learns nothing.

Key definitions: `Round.stepAnswers`, `Taped.stepAnswers`, `Gateway`.
Key theorems: `Broker.reconciled_of_answer`, `Broker.stepAnswers_round`,
`Broker.repeated_step_requests`.
-/
import Brokerage.Proofs.Asked
import Brokerage.Proofs.Attempts
import Brokerage.Proofs.Calm
import Brokerage.Proofs.Recorded

namespace Brokerage

variable {σ α : Type} [Amount α]

/-- The answers on the tape to requests for a step. -/
def Taped.stepAnswers (t : Taped σ α) : List (Except ServiceFault (StepReply α)) :=
  t.tape.filterMap ServiceCall.stepAnswer?

/-- What one part may have beyond its counted elements, the whole may have for each
part. -/
theorem length_flatMap_le {β γ : Type} (p : γ → Bool) (f : β → List γ) : ∀ xs : List β,
    (∀ x ∈ xs, (f x).length ≤ 1 + (f x).countP p) →
      (xs.flatMap f).length ≤ xs.length + (xs.flatMap f).countP p
  | [], _ => Nat.le_refl 0
  | x :: xs, h => by
    have hx := h x List.mem_cons_self
    have ih := length_flatMap_le p f xs fun y hy => h y (List.mem_cons_of_mem x hy)
    rw [List.flatMap_cons, List.length_append, List.countP_append, List.length_cons]
    omega

variable [Service σ α]

/-- How the service answers the step requests of a round. -/
def Round.stepAnswers (round : Round σ α) : List (Except ServiceFault (StepReply α)) :=
  Broker.gather Broker.stepAnswers round.start round.calls

namespace Broker

/-! ### A tick -/

theorem length_stepAnswers_le (b : Broker σ α) : (b.stepAnswers .tick).length ≤ 1 := by
  rcases b.stepAnswers_tick with h | ⟨-, -, -, h⟩
  · rw [h]
    exact Nat.zero_le 1
  · rw [h]
    exact Nat.le_refl 1

/-- If a tick that asks for a step goes unanswered, then it is this answer that was
lost. -/
theorem lost_of_unanswered {b : Broker σ α} (h : unanswered b.tick.1 = true) :
    ∀ answer ∈ b.stepAnswers .tick, lost answer = true := by
  intro answer hmem
  rcases b.stepAnswers_tick with hnone | ⟨hactive, hfree, htaken, hsome⟩
  · rw [hnone] at hmem
    cases hmem
  · rw [hsome] at hmem
    obtain rfl := List.mem_singleton.mp hmem
    rw [unanswered_fresh hactive hfree] at h
    unfold reply at h
    unfold delivery
    rcases hs : b.submission with ⟨cause | _, s⟩
    · rw [hs] at htaken
      cases htaken
    · rw [hs] at h
      simp only at h ⊢
      rcases hn : Service.nextStep (α := α) b.session s with ⟨cause | reply, t⟩
      · rw [hn] at h
        exact (unanswered_ofService cause []).symm.trans h
      · rw [hn] at h
        cases h

/-- A tick that gets a reply and is completed reports the executions of the reply. -/
theorem reconciled_of_answer {b : Broker σ α} {reply : StepReply α}
    (hreply : .ok reply ∈ b.stepAnswers .tick) {report : TickReport α}
    (h : b.tick.1 = .ok report) : report.executed = reply.executed := by
  rcases b.stepAnswers_tick with hnone | ⟨hactive, hfree, -, hsome⟩
  · rw [hnone] at hreply
    cases hreply
  · rw [hsome] at hreply
    have hanswer : b.delivery.1 = .ok reply := (List.mem_singleton.mp hreply).symm
    have hdelivery : b.delivery = (.ok reply, b.delivery.2) := Prod.ext hanswer rfl
    rw [tick_eq, due_of_delivery hactive hfree hdelivery] at h
    cases hcheck : reply.check with
    | error defect =>
      rw [hcheck] at h
      cases h
    | ok step =>
      rw [hcheck] at h
      obtain ⟨-, -, -, -, hexecuted, -⟩ := applyStep_ok h
      rw [hexecuted, (StepReply.check_ok hcheck).2.2]

/-! ### A round -/

variable (plan : Plan α) (options : RunOptions)

/-- **The step requests of a round:** those whose answers were lost and that were
repeated, no more than there are retries, and at most one after them. -/
theorem stepAnswers_round (step : Nat) {b : Broker σ α} (hactive : b.finished = false) :
    let round := b.round plan options step
    ∃ repeated last, round.stepAnswers = repeated ++ last ∧
      (∀ answer ∈ repeated, lost answer = true) ∧
      repeated.length ≤ options.maxTickRetries ∧ last.length ≤ 1 := by
  obtain ⟨before, hcalls, hvain, hle, -⟩ := round_last plan options step hactive
  refine ⟨gather stepAnswers b before, (b.after before).stepAnswers .tick, ?_,
    hvain.gather (fun _ _ => rfl) fun c hc => lost_of_unanswered hc,
    Nat.le_trans (length_gather_le (fun _ _ => rfl) length_stepAnswers_le before b) hle,
    length_stepAnswers_le _⟩
  show gather stepAnswers b (b.round plan options step).calls = _
  rw [hcalls, gather_snoc]

/-- If a reply comes in a round that is completed, then the round reports the executions
of this reply. -/
theorem reconciled_round (step : Nat) {b : Broker σ α} (hactive : b.finished = false)
    {reply : StepReply α} (hreply : .ok reply ∈ (b.round plan options step).stepAnswers)
    {report : TickReport α} (h : (b.round plan options step).outcome = .ok report) :
    report.executed = reply.executed := by
  obtain ⟨before, hcalls, hvain, -, houtcome⟩ := round_last plan options step hactive
  unfold Round.stepAnswers at hreply
  rw [hcalls, gather_snoc] at hreply
  rcases List.mem_append.mp hreply with hreply | hreply
  · have hlost : lost (.ok reply : Except ServiceFault (StepReply α)) = true :=
      hvain.gather (fun _ _ => rfl) (fun c hc => lost_of_unanswered hc) _ hreply
    cases hlost
  · rw [h] at houtcome
    exact reconciled_of_answer hreply houtcome.symm

/-! ### A replay -/

/-- **A replay repeats a step request only if its answer was lost,** and in a round not
more often than it may try again: without lost answers, or without retries, it asks at
most once in each round. A reply that comes is reconciled in its round as a whole, or
the replay ends with a fault. In all there are no more step requests than rounds and
lost answers. -/
theorem repeated_step_requests (limit : Nat) (b : Broker σ α) :
    let rounds := b.rounds plan options limit 0
    let done := replay plan options limit b
    let taped : Broker (Taped σ α) α := b.onto ⟨b.service, []⟩
    let answers := (taped.after (callsOf rounds)).service.stepAnswers
    (done.broker = b.after (callsOf rounds) ∧
      (taped.after (callsOf rounds)).untaped = done.broker) ∧
    answers = rounds.flatMap Round.stepAnswers ∧
    (∀ round ∈ rounds,
      (∃ repeated last, round.stepAnswers = repeated ++ last ∧
        (∀ answer ∈ repeated, lost answer = true) ∧
        repeated.length ≤ options.maxTickRetries ∧ last.length ≤ 1) ∧
      ∀ reply, .ok reply ∈ round.stepAnswers →
        (∃ report, round.outcome = .ok report ∧ report.executed = reply.executed ∧
          round.finish.tradeLog = round.start.tradeLog ++ reply.executed) ∨
        ∃ fault, round.outcome = .error fault ∧ done.outcome = some (.error fault)) ∧
    answers.length ≤ rounds.length + answers.countP lost := by
  obtain ⟨hbroker, -, -⟩ := replay_rounds plan options limit b
  have hanswers : ((b.onto (⟨b.service, []⟩ : Taped σ α)).after
      (callsOf (b.rounds plan options limit 0))).service.stepAnswers =
        (b.rounds plan options limit 0).flatMap Round.stepAnswers := by
    unfold Taped.stepAnswers
    rw [tape_after]
    show (gather asking b _).filterMap _ = _
    rw [← gather_filterMap]
    exact gather_rounds stepAnswers limit 0 b
  refine ⟨⟨hbroker, ?_⟩, hanswers, fun round hround => ?_, ?_⟩
  · rw [hbroker]
    exact (after_untaped _ _).symm
  · obtain ⟨step, start, hactive, rfl⟩ := round_of_mem hround
    refine ⟨stepAnswers_round plan options step hactive, fun reply hreply => ?_⟩
    cases houtcome : (start.round plan options step).outcome with
    | error fault => exact .inr ⟨fault, rfl, advance_fault houtcome limit _ _ hround⟩
    | ok report =>
      have hexecuted := reconciled_round plan options step hactive hreply houtcome
      refine .inl ⟨report, rfl, hexecuted, ?_⟩
      rw [← hexecuted, ← logging_round plan options step hactive houtcome]
      exact Round.finish_tradeLog _
  · rw [hanswers]
    refine length_flatMap_le lost Round.stepAnswers _ fun round hround => ?_
    obtain ⟨step, start, hactive, rfl⟩ := round_of_mem hround
    obtain ⟨repeated, last, hsplit, hlost, -, hlast⟩ :=
      stepAnswers_round plan options step hactive
    rw [hsplit, List.length_append, List.countP_append, List.countP_eq_length.mpr hlost]
    omega

end Broker

/-! ### A lost reply -/

/-- A scripted service behind a gateway. Each step request reaches the service, but the
first replies do not come back. -/
structure Gateway where
  service : ScriptedService Rat
  /-- How many replies are still to be lost. -/
  timeouts : Nat

def Gateway.nextStep (session : SessionId) (g : Gateway) :
    Except ServiceFault (StepReply Rat) × Gateway :=
  let (answer, service) := g.service.nextStep session
  match g.timeouts with
  | 0 => (answer, ⟨service, 0⟩)
  | timeouts + 1 => (.error (.transport "gateway timeout"), ⟨service, timeouts⟩)

/-- Passes an answer on. -/
def Gateway.pass {β : Type} (g : Gateway) (answer : β × ScriptedService Rat) : β × Gateway :=
  (answer.1, ⟨answer.2, g.timeouts⟩)

instance : Service Gateway Rat where
  openSession request g := g.pass (g.service.openSession request)
  submit session orders g := g.pass (g.service.submit session orders)
  nextStep := Gateway.nextStep
  sessionInfo session g := g.pass (Service.sessionInfo session g.service)
  datasetSpan g := g.pass (Service.datasetSpan g.service)
  clock session g := g.pass (Service.clock session g.service)

namespace Broker

/-- The sample session behind a gateway that loses the reply with its one step. -/
def sampleBehindGateway : Broker Gateway Rat :=
  sampleBroker.onto ⟨sampleBroker.service, 1⟩

/-- The bound is met: one round, one lost answer and two requests. -/
theorem sample_repeated_step_requests :
    let rounds := sampleBehindGateway.rounds ⟨[]⟩ sampleOptions 2 0
    (rounds.flatMap Round.stepAnswers).length = 2 ∧
    (rounds.flatMap Round.stepAnswers).length ≤
      rounds.length + (rounds.flatMap Round.stepAnswers).countP lost := by
  obtain ⟨-, hanswers, -, hbound⟩ :=
    repeated_step_requests ⟨[]⟩ sampleOptions 2 sampleBehindGateway
  rw [hanswers] at hbound
  exact ⟨rfl, hbound⟩

/-- The service is asked for two steps in one round. The first has three executions,
but its reply is lost: the replay is completed, and none of the three is in its log. -/
theorem sample_step_lost :
    let done := replay ⟨[]⟩ sampleOptions 2 sampleBehindGateway
    (sampleBehindGateway.round ⟨[]⟩ sampleOptions 0).stepAnswers.length = 2 ∧
    sampleBroker.service.script = [sampleReply] ∧ sampleReply.executed.length = 3 ∧
    done.broker.service.service.served = 2 ∧ done.broker.tradeLog = [] ∧
    done.outcome = some (.ok ⟨⟨0⟩, 1, 0, 0, 0, 1000, none, true⟩) :=
  ⟨rfl, rfl, rfl, rfl, rfl, rfl⟩

end Broker

end Brokerage
