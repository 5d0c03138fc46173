/-
# What a call asks of the service

An insertion asks nothing, and so does a tick that goes on with a held step or comes
too late. A fresh tick submits the accepted orders if there are any, and asks for a
step unless they were not taken (`Broker.asking_fresh`). A taped service has been asked
just this (`Broker.perform_tape`).

Key definitions: `Broker.submitting`, `Broker.requesting`, `Broker.asking`,
`Broker.asked`, `ServiceCall.stepAnswer?`, `Broker.stepAnswers`.
Key theorems: `Broker.asking_fresh`, `Broker.stepAnswers_tick`, `Broker.perform_tape`,
`Broker.asking_untaped`, `Broker.tape_after`.
-/
import Brokerage.Proofs.Dispatch

namespace Brokerage

variable {σ α : Type} [Amount α]

/-- The answer to a request for a step. -/
def ServiceCall.stepAnswer? : ServiceCall α → Option (Except ServiceFault (StepReply α))
  | .nextStep _ answer => some answer
  | _ => none

namespace Broker

theorem fresh_iff {b : Broker σ α} :
    (b.finished || b.held.isSome) = false ↔ b.finished = false ∧ b.held = none := by
  rw [Bool.or_eq_false_iff, Option.isSome_eq_false_iff, Option.isNone_iff_eq_none]

variable [Service σ α]

/-- The submission of a fresh tick; there is none without accepted orders. -/
def submitting (b : Broker σ α) : List (ServiceCall α) :=
  if b.accepted.isEmpty then [] else [.submit b.session b.accepted b.submission.1]

/-- The step request of a fresh tick; there is none if the orders were not taken. -/
def requesting (b : Broker σ α) : List (ServiceCall α) :=
  match b.submission.1 with
  | .error _ => []
  | .ok () => [.nextStep b.session b.delivery.1]

/-- What a call asks of the service. -/
def asking (b : Broker σ α) : Call α → List (ServiceCall α)
  | .insert _ => []
  | .tick => if b.finished || b.held.isSome then [] else b.submitting ++ b.requesting

/-- What a run asks of the service. -/
def asked (b : Broker σ α) (calls : List (Call α)) : List (ServiceCall α) :=
  gather asking b calls

/-- How the service answers the step request of a call, if there is one. -/
def stepAnswers (b : Broker σ α) (call : Call α) : List (Except ServiceFault (StepReply α)) :=
  (b.asking call).filterMap ServiceCall.stepAnswer?

theorem asking_stale {b : Broker σ α} (h : (b.finished || b.held.isSome) = true) :
    ∀ call : Call α, b.asking call = []
  | .insert _ => rfl
  | .tick => if_pos h

/-- **A fresh tick** asks for a step, or submits the accepted orders, all in one batch,
and asks for a step if the batch is taken. -/
theorem asking_fresh {b : Broker σ α} (hactive : b.finished = false) (hfree : b.held = none) :
    (b.accepted = [] ∧ b.submission.1 = .ok () ∧
      b.asking .tick = [.nextStep b.session b.delivery.1]) ∨
    (b.accepted ≠ [] ∧ b.submission.1 = .ok () ∧ b.asking .tick =
      [.submit b.session b.accepted (.ok ()), .nextStep b.session b.delivery.1]) ∨
    (b.accepted ≠ [] ∧ ∃ fault, b.submission.1 = .error fault ∧
      b.asking .tick = [.submit b.session b.accepted (.error fault)]) := by
  have hasking : b.asking .tick = b.submitting ++ b.requesting := by
    unfold asking
    rw [hactive, hfree]
    rfl
  rw [hasking]
  unfold submitting requesting
  cases haccepted : b.accepted with
  | nil =>
    have hsubmission : b.submission.1 = .ok () := by
      unfold submission
      rw [sifted_accepted, haccepted]
      rfl
    rw [hsubmission]
    exact .inl ⟨rfl, rfl, rfl⟩
  | cons order orders =>
    refine .inr ?_
    cases b.submission.1 with
    | error fault => exact .inr ⟨List.cons_ne_nil _ _, fault, rfl, rfl⟩
    | ok _ => exact .inl ⟨List.cons_ne_nil _ _, rfl, rfl⟩

/-- A tick asks for a step once its orders have been taken, and but once. -/
theorem stepAnswers_tick (b : Broker σ α) :
    b.stepAnswers .tick = [] ∨
      (b.finished = false ∧ b.held = none ∧ b.submission.1 = .ok () ∧
        b.stepAnswers .tick = [b.delivery.1]) := by
  unfold stepAnswers
  cases hstale : b.finished || b.held.isSome with
  | true =>
    rw [asking_stale hstale]
    exact .inl rfl
  | false =>
    obtain ⟨hactive, hfree⟩ := fresh_iff.mp hstale
    rcases asking_fresh hactive hfree with ⟨-, htaken, hasking⟩ | ⟨-, htaken, hasking⟩ |
      ⟨-, fault, -, hasking⟩
    · rw [hasking]
      exact .inr ⟨hactive, hfree, htaken, rfl⟩
    · rw [hasking]
      exact .inr ⟨hactive, hfree, htaken, rfl⟩
    · rw [hasking]
      exact .inl rfl

/-- What is picked out of what is seen at each call. -/
theorem gather_filterMap {γ δ : Type} (f : Broker σ α → Call α → List γ) (g : γ → Option δ) :
    ∀ (calls : List (Call α)) (b : Broker σ α),
      gather (fun b call => (f b call).filterMap g) b calls = (gather f b calls).filterMap g
  | [], _ => rfl
  | call :: calls, b => by
    rw [gather, gather, gather_filterMap f g calls, List.filterMap_append]

/-! ### On the tape -/

theorem submission_recorded (b : Broker (Taped σ α) α) :
    b.submission.2.tape = b.service.tape ++ b.submitting := by
  unfold submitting submission
  rw [sifted_accepted]
  cases b.accepted.isEmpty with
  | true => exact (List.append_nil _).symm
  | false => rfl

theorem delivery_recorded (b : Broker (Taped σ α) α) :
    b.delivery.2.tape = b.submission.2.tape ++ b.requesting := by
  unfold requesting delivery
  rcases b.submission with ⟨fault | _, t⟩
  · exact (List.append_nil _).symm
  · rfl

/-- **The tape goes on with what a call asks.** -/
theorem perform_tape (b : Broker (Taped σ α) α) : ∀ call : Call α,
    (b.perform call).2.service.tape = b.service.tape ++ b.asking call
  | .insert order => by
    rcases b.insert_eq order with h | h <;> unfold perform <;> rw [h] <;>
      exact (List.append_nil _).symm
  | .tick => by
    obtain ⟨-, hservice, -⟩ := b.tick_after_due
    show b.tick.2.service.tape = _
    rw [hservice]
    cases hstale : b.finished || b.held.isSome with
    | true =>
      rcases b.fresh_or_stale with ⟨hactive, hfree, -⟩ | ⟨-, -, -, hkept, -⟩
      · rw [hactive, hfree] at hstale
        cases hstale
      · rw [hkept, asking_stale hstale, List.append_nil]
    | false =>
      obtain ⟨hactive, hfree⟩ := fresh_iff.mp hstale
      have hasking : b.asking .tick = b.submitting ++ b.requesting :=
        if_neg (by rw [hstale]; exact Bool.false_ne_true)
      rw [(due_fresh hactive hfree).2.2, delivery_recorded, submission_recorded, hasking,
        List.append_assoc]

theorem delivery_untaped (b : Broker (Taped σ α) α) :
    b.untaped.delivery = (b.delivery.1, b.delivery.2.service) := by
  unfold delivery
  rw [submission_untaped]
  rcases b.submission with ⟨fault | _, t⟩ <;> rfl

theorem asking_untaped (b : Broker (Taped σ α) α) : ∀ call : Call α,
    b.untaped.asking call = b.asking call
  | .insert _ => rfl
  | .tick => by
    unfold asking submitting requesting
    rw [submission_untaped, delivery_untaped]
    rfl

/-- **What is on the tape after a run** is what the run asks of the service. -/
theorem tape_after (calls : List (Call α)) (b : Broker (Taped σ α) α) :
    (b.after calls).service.tape = b.service.tape ++ b.untaped.asked calls := by
  unfold asked
  rw [gather_untaped asking_untaped]
  exact gather_record (f := fun b => b.service.tape) perform_tape calls b

end Broker
end Brokerage
