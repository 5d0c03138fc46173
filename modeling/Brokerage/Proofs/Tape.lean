/-
# Listening in on the service

A taped service answers as the service under it does and records what it was asked
and what it answered. The broker cannot tell: a run on the taped service, with the
tape taken away, is the run on the service itself (`Broker.after_untaped`). So what
holds of every tape holds of what a broker asks of any service.

Key definitions: `ServiceCall`, `Taped`, `Broker.untaped`.
Key theorems: `Broker.tick_untaped`, `Broker.perform_untaped`,
`Broker.after_untaped`, `Broker.gather_untaped`, `Broker.connect_untaped`.
-/
import Brokerage.Proofs.Frame

namespace Brokerage

variable {σ α : Type} [Amount α]

/-- A question to the service, and the answer. -/
inductive ServiceCall (α : Type) [Amount α] where
  | openSession (request : SessionRequest) (answer : Except ServiceFault (Opening α))
  | submit (session : SessionId) (orders : List (Order α)) (answer : Except ServiceFault Unit)
  | nextStep (session : SessionId) (answer : Except ServiceFault (StepReply α))
  | sessionInfo (session : SessionId) (answer : Except ServiceFault SessionInfo)
  | datasetSpan (answer : Except ServiceFault DatasetSpan)
  | clock (session : SessionId) (answer : Except ServiceFault Clock)

/-- A service with the calls made to it, the oldest first. -/
structure Taped (σ α : Type) [Amount α] where
  service : σ
  tape : List (ServiceCall α)

namespace Taped

/-- Passes an answer on and records it. -/
def hear {β : Type} (t : Taped σ α) (answer : Except ServiceFault β × σ)
    (call : Except ServiceFault β → ServiceCall α) : Except ServiceFault β × Taped σ α :=
  (answer.1, ⟨answer.2, t.tape ++ [call answer.1]⟩)

instance [Service σ α] : Service (Taped σ α) α where
  openSession request t := t.hear (Service.openSession request t.service) (.openSession request)
  submit session orders t :=
    t.hear (Service.submit session orders t.service) (.submit session orders)
  nextStep session t := t.hear (Service.nextStep session t.service) (.nextStep session)
  sessionInfo session t := t.hear (Service.sessionInfo session t.service) (.sessionInfo session)
  datasetSpan t := t.hear (Service.datasetSpan t.service) .datasetSpan
  clock session t := t.hear (Service.clock session t.service) (.clock session)

end Taped

namespace Broker

/-- The broker at the service under the tape. -/
def untaped (b : Broker (Taped σ α) α) : Broker σ α :=
  b.onto b.service.service

section

variable [Service σ α]

theorem submission_untaped (b : Broker (Taped σ α) α) :
    b.untaped.submission = (b.submission.1, b.submission.2.service) := by
  have hsifted : b.untaped.sifted = b.sifted := rfl
  unfold submission
  rw [hsifted]
  cases b.sifted.accepted.isEmpty <;> rfl

theorem due_untaped (b : Broker (Taped σ α) α) :
    b.untaped.due = (b.due.1, b.due.2.untaped) := by
  have hfinished : b.untaped.finished = b.finished := rfl
  have hheld : b.untaped.held = b.held := rfl
  unfold due
  rw [hfinished, hheld, submission_untaped]
  cases b.finished with
  | true => rfl
  | false =>
    cases b.held with
    | some step => rfl
    | none =>
      simp only [Bool.false_eq_true, if_false]
      rcases b.submission with ⟨fault | _, t⟩
      · rfl
      · have hear : Service.nextStep b.session t =
            t.hear (Service.nextStep b.session t.service) (.nextStep b.session) := rfl
        have hsession : b.untaped.session = b.session := rfl
        simp only [hear, hsession]
        rcases Service.nextStep (α := α) b.session t.service with ⟨fault | reply, s⟩
        · rfl
        · simp only [Taped.hear]
          cases reply.check <;> rfl

theorem tick_untaped (b : Broker (Taped σ α) α) :
    b.untaped.tick = (b.tick.1, b.tick.2.untaped) := by
  rw [tick_eq, tick_eq, due_untaped]
  rcases b.due with ⟨fault | ⟨step, report⟩, c⟩
  · rfl
  · exact c.applyStep_onto (·.service) step report

theorem perform_untaped (b : Broker (Taped σ α) α) : ∀ call : Call α,
    b.untaped.perform call = ((b.perform call).1, (b.perform call).2.untaped)
  | .insert order => by
    have hfinished : b.untaped.finished = b.finished := rfl
    unfold perform insert
    rw [hfinished]
    cases b.finished <;> rfl
  | .tick => by
    unfold perform
    rw [tick_untaped]

/-- **The tape makes no difference.** -/
theorem after_untaped : ∀ (calls : List (Call α)) (b : Broker (Taped σ α) α),
    b.untaped.after calls = (b.after calls).untaped
  | [], _ => rfl
  | call :: calls, b => by
    rw [after, perform_untaped]
    exact after_untaped calls _

/-- What is seen at each call without the tape is seen in the run on the service. -/
theorem gather_untaped {γ : Type} {f : Broker σ α → Call α → List γ}
    {g : Broker (Taped σ α) α → Call α → List γ} (h : ∀ b call, f b.untaped call = g b call) :
    ∀ (calls : List (Call α)) (b : Broker (Taped σ α) α),
      gather f b.untaped calls = gather g b calls
  | [], _ => rfl
  | call :: calls, b => by
    rw [gather, gather, h, perform_untaped, gather_untaped h calls]

/-- A session that is opened on the service is opened on the taped service as
well. -/
theorem connect_untaped {setup : Setup α} {service : σ} {b : Broker σ α}
    (h : connect setup service = .ok b) : ∃ (b' : Broker (Taped σ α) α) (request : SessionRequest)
      (opening : Opening α), connect setup (⟨service, []⟩ : Taped σ α) = .ok b' ∧ b'.untaped = b ∧
        b'.service.tape = [.openSession request (.ok opening)] := by
  unfold connect at h ⊢
  cases hs : checkSetup setup with
  | error fault => rw [hs] at h; cases h
  | ok checked =>
    obtain ⟨cash, request⟩ := checked
    rw [hs] at h
    have hear : Service.openSession request (⟨service, []⟩ : Taped σ α) =
        Taped.hear ⟨service, []⟩ (Service.openSession request service) (.openSession request) := rfl
    simp only [hear]
    rcases ho : Service.openSession request service with ⟨fault | opening, s⟩
    · simp only [ho] at h
      cases h
    · simp only [ho] at h
      cases h
      exact ⟨_, request, opening, rfl, rfl, rfl⟩

end

end Broker
end Brokerage
