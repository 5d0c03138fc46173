/-
# The batch of a step

A tick that is tried again makes several attempts (`Broker.Retries`), and each of them may
send a batch. If a batch does not reach the service, its orders come back and make the
batch of the next attempt; once a batch was taken, nothing comes back and no further batch
is made. All attempts judge the orders by the same ledger. So of all the batches of a tick
that was completed in the end the service took exactly one, and that one has the orders
that were accepted at the first attempt (`Broker.Retries.taken`).

Key definitions: `Submission.taken`, `Submission.takenOf`, `Broker.retried`,
`Broker.Retries`.
Key theorems: `Broker.tick_completed`, `Broker.taken_retried`, `Broker.retries_attempts`,
`Broker.Retries.ledger`, `Broker.Retries.inserted`, `Broker.Retries.taken`.
-/
import Brokerage.Proofs.Attempts
import Brokerage.Proofs.Ending
import Brokerage.Proofs.Recorded

namespace Brokerage

variable {σ α : Type} [Amount α]

namespace Submission

/-- The service took the batch. -/
def taken (s : Submission α) : Bool :=
  s.answer.isOk

/-- The batch of some orders, taken by the service; without an order there is none. -/
def takenOf (session : SessionId) (orders : List (Order α)) : List (Submission α) :=
  if orders.isEmpty then [] else [⟨session, orders, .ok ()⟩]

end Submission

open Submission (takenOf)

namespace Broker

variable [Service σ α]

theorem dispatch_fresh {b : Broker σ α} (hactive : b.finished = false) (hfree : b.held = none) :
    b.dispatch .tick = [b.dispatched] := by
  unfold dispatch
  rw [hactive, hfree]
  rfl

theorem dispatches_inserts : ∀ (orders : List (Order α)) (b : Broker σ α),
    b.dispatches (orders.map .insert) = []
  | [], _ => rfl
  | order :: orders, b => dispatches_inserts orders (b.insert order).2

/-! ### A tick that is completed -/

theorem taken_batches {b : Broker σ α} {s : σ} (h : b.submission = (.ok (), s)) :
    b.dispatched.batches.filter (·.taken) = takenOf b.session b.accepted := by
  have hanswer : b.dispatched.answer = .ok () := congrArg Prod.fst h
  have haccepted : b.dispatched.accepted = b.accepted := rfl
  unfold Dispatch.batches takenOf
  rw [haccepted, hanswer]
  split
  · rfl
  · exact List.filter_cons_of_pos rfl

/-- A completed tick has had its batch taken, and leaves nothing pending and nothing
held. -/
theorem tick_completed {b : Broker σ α} (hfree : b.held = none) {report : TickReport α}
    (h : b.tick.1 = .ok report) :
    b.finished = false ∧
      b.dispatched.batches.filter (·.taken) = takenOf b.session b.accepted ∧
      b.tick.2.account.blotter.pending = [] ∧ b.tick.2.held = none := by
  obtain ⟨hpending, -, -⟩ := b.tick_after_due
  rw [hpending]
  rw [tick_eq] at h ⊢
  rcases hd : b.due with ⟨fault | ⟨step, begun⟩, c⟩
  · rw [hd] at h
    cases h
  · have hheld := due_held hd
    rw [hd] at h
    obtain ⟨-, hkept, -⟩ := applyStep_completed h
    rcases due_ok hd with ⟨hactive, ⟨hsome, -⟩ | ⟨-, -, reply, s, hdelivery, -, rfl⟩⟩
    · rw [hfree] at hsome
      cases hsome
    · obtain ⟨t, hsubmission, -⟩ := submission_of_delivery hdelivery
      exact ⟨hactive, taken_batches hsubmission, rfl, hkept.trans hheld⟩

/-! ### A tick that goes unanswered -/

/-- The broker after a tick, with what it handed back inserted anew. -/
def retried (b : Broker σ α) : Broker σ α :=
  b.tick.2.after ((handedBack b.tick.1).map .insert)

/-- Before it is tried again, an unanswered tick has changed the service, the journal and
the pending orders. -/
theorem retried_eq {b : Broker σ α} (h : unanswered b.tick.1 = true) :
    b.retried = b.sent.recast b.reply.2 (handedBack b.tick.1) := by
  obtain ⟨-, -, -, htick⟩ := tick_unanswered h
  obtain ⟨hafter, -⟩ := after_inserts (handedBack b.tick.1) (active_of_unanswered h)
  rw [retried, hafter, htick]
  rfl

/-- A tick goes unanswered because its batch did not get through, and then it hands the
batch back, or after its batch was taken, and then it hands nothing back. -/
theorem batches_unanswered {b : Broker σ α} (h : unanswered b.tick.1 = true) :
    (b.dispatched.batches.filter (·.taken) = [] ∧ handedBack b.tick.1 = b.accepted) ∨
      (b.dispatched.batches.filter (·.taken) = takenOf b.session b.accepted ∧
        handedBack b.tick.1 = []) := by
  obtain ⟨hactive, hfree, reason, orders, htick, hbreak⟩ := breakdown_of_unanswered h
  have hback : handedBack b.tick.1 = orders := by rw [htick]; rfl
  rw [hback]
  cases hbreak with
  | unsent cause s hsome hsubmit hfault =>
    have hanswer : b.dispatched.answer = .error cause :=
      congrArg Prod.fst (submission_error_iff.mpr ⟨hsome, hsubmit⟩)
    left
    constructor
    · unfold Dispatch.batches
      rw [hanswer]
      split
      · rfl
      · exact List.filter_cons_of_neg Bool.false_ne_true
    · cases cause with
      | transport reason => exact (BrokerFault.transport.inj hfault).2
      | protocol reason => cases hfault
  | unfetched cause s t hsubmit hnext hfault =>
    right
    refine ⟨taken_batches hsubmit, ?_⟩
    cases cause with
    | transport reason => exact (BrokerFault.transport.inj hfault).2
    | protocol reason => cases hfault
  | malformed reply s defect hdelivery hdefective hcheck hfault => cases hfault

theorem handedBack_sublist {b : Broker σ α} (h : unanswered b.tick.1 = true) :
    (handedBack b.tick.1).Sublist b.account.blotter.pending := by
  rcases batches_unanswered h with ⟨-, hback⟩ | ⟨-, hback⟩
  · rw [hback]
    exact List.filter_sublist
  · rw [hback]
    exact List.nil_sublist _

/-- **What was taken and what is still to be taken** make the batch of the first
attempt. -/
theorem taken_retried {b : Broker σ α} (h : unanswered b.tick.1 = true) :
    b.dispatched.batches.filter (·.taken) ++ takenOf b.retried.session b.retried.accepted =
      takenOf b.session b.accepted := by
  have hsession : b.retried.session = b.session := by rw [retried_eq h]; rfl
  have haccepted : b.retried.accepted =
      (handedBack b.tick.1).filter fun order => (b.account.ledger.refusal? order).isNone := by
    rw [retried_eq h]
    rfl
  rw [hsession, haccepted]
  rcases batches_unanswered h with ⟨hlost, hback⟩ | ⟨htaken, hback⟩
  · -- The same orders are accepted again.
    have hagain : (b.accepted.filter fun order => (b.account.ledger.refusal? order).isNone) =
        b.accepted := by
      unfold accepted
      rw [List.filter_filter]
      simp only [Bool.and_self]
    rw [hlost, hback, hagain]
    rfl
  · rw [htaken, hback]
    exact List.append_nil _

/-! ### All attempts -/

/-- The calls are a tick and, if it goes unanswered, the insertion of what it handed back
followed by calls of the same kind; the outcome is that of the last tick. -/
inductive Retries :
    Broker σ α → List (Call α) → Except (BrokerFault α) (TickReport α) → Prop
  | last (b : Broker σ α) : Retries b [.tick] b.tick.1
  | again {b : Broker σ α} {calls : List (Call α)}
      {outcome : Except (BrokerFault α) (TickReport α)} (hlost : unanswered b.tick.1 = true)
      (hcalls : Retries b.retried calls outcome) :
      Retries b (.tick :: ((handedBack b.tick.1).map .insert ++ calls)) outcome

theorem attempts_answered (left : Nat) {b : Broker σ α} (h : unanswered b.tick.1 = false) :
    b.attempts left = [.tick] := by
  cases left with
  | zero => rfl
  | succ left =>
    unfold attempts
    rw [h]
    rfl

theorem attempts_unanswered (left : Nat) {b : Broker σ α} (h : unanswered b.tick.1 = true) :
    b.attempts (left + 1) =
      .tick :: ((handedBack b.tick.1).map .insert ++ b.retried.attempts left) := by
  rw [attempts, h]
  rfl

/-- **A tick that is tried again** makes its attempts in this way. -/
theorem retries_attempts (limit : Nat) : ∀ (left : Nat) (b : Broker σ α),
    b.Retries (b.attempts left) (tickRetrying limit left b).1
  | 0, b => by
    rw [tickRetrying_zero]
    exact .last b
  | left + 1, b => by
    cases h : unanswered b.tick.1 with
    | false =>
      rw [attempts_answered (left + 1) h, tickRetrying_answered limit (left + 1) h]
      exact .last b
    | true =>
      obtain ⟨note, hretried⟩ := tickRetrying_unanswered limit left h
      rw [attempts_unanswered left h, hretried]
      exact .again h (retries_attempts limit left b.retried)

theorem dispatches_again (b : Broker σ α) (calls : List (Call α)) :
    b.dispatches (.tick :: ((handedBack b.tick.1).map .insert ++ calls)) =
      b.dispatch .tick ++ b.retried.dispatches calls := by
  show b.dispatch .tick ++ b.tick.2.dispatches _ = _
  unfold dispatches
  rw [gather_append]
  show b.dispatch .tick ++ (b.tick.2.dispatches _ ++ _) = _
  rw [dispatches_inserts]
  rfl

namespace Retries

variable {b : Broker σ α} {calls : List (Call α)}
  {outcome : Except (BrokerFault α) (TickReport α)}

theorem first (h : b.Retries calls outcome) : ∃ later, calls = .tick :: later := by
  cases h with
  | last => exact ⟨_, rfl⟩
  | again hlost hcalls => exact ⟨_, rfl⟩

/-- All attempts judge the orders by the same ledger. -/
theorem ledger (h : b.Retries calls outcome) :
    ∀ d ∈ b.dispatches calls, d.ledger = b.account.ledger := by
  induction h with
  | last b =>
    intro d hd
    have hd : d ∈ b.dispatch .tick ++ [] := hd
    rw [List.append_nil] at hd
    rw [mem_dispatch hd]
    rfl
  | @again b calls outcome hlost hcalls ih =>
    intro d hd
    have hledger : b.retried.account.ledger = b.account.ledger := by
      rw [retried_eq hlost]
      rfl
    rw [dispatches_again] at hd
    rcases List.mem_append.mp hd with hd | hd
    · rw [mem_dispatch hd]
      rfl
    · exact (ih d hd).trans hledger

/-- Only pending orders are inserted anew. -/
theorem inserted (h : b.Retries calls outcome) :
    ∀ order, Call.insert order ∈ calls → order ∈ b.account.blotter.pending := by
  induction h with
  | last b =>
    intro order hmem
    cases List.mem_singleton.mp hmem
  | @again b calls outcome hlost hcalls ih =>
    intro order hmem
    have hpending : b.retried.account.blotter.pending = handedBack b.tick.1 := by
      rw [retried_eq hlost]
      rfl
    rw [hpending] at ih
    refine (handedBack_sublist hlost).subset ?_
    rcases List.mem_append.mp ((List.mem_cons.mp hmem).resolve_left nofun) with hback | hlater
    · obtain ⟨_, hback, heq⟩ := List.mem_map.mp hback
      cases heq
      exact hback
    · exact ih order hlater

/-- **Of a tick that is completed in the end** the service took exactly one batch, that of
the orders accepted at the first attempt, and nothing is left pending or held. -/
theorem taken {report : TickReport α} (h : b.Retries calls outcome) (hfree : b.held = none)
    (hdone : outcome = .ok report) :
    ((b.dispatches calls).flatMap (·.batches)).filter (·.taken) =
        takenOf b.session b.accepted ∧
      (b.after calls).account.blotter.pending = [] ∧ (b.after calls).held = none := by
  induction h with
  | last b =>
    obtain ⟨hactive, htaken, hpending, hheld⟩ := tick_completed hfree hdone
    refine ⟨?_, hpending, hheld⟩
    show ((b.dispatch .tick ++ []).flatMap _).filter _ = _
    rw [dispatch_fresh hactive hfree]
    simpa using htaken
  | @again b calls outcome hlost hcalls ih =>
    obtain ⟨hactive, -⟩ := breakdown_of_unanswered hlost
    have hheld : b.retried.held = none := by
      rw [retried_eq hlost]
      exact hfree
    obtain ⟨htaken, hpending, hnone⟩ := ih hheld hdone
    have hafter : b.after (.tick :: ((handedBack b.tick.1).map .insert ++ calls)) =
        b.retried.after calls := after_append b.tick.2 _ _
    rw [hafter]
    refine ⟨?_, hpending, hnone⟩
    rw [dispatches_again, dispatch_fresh hactive hfree, List.flatMap_append, List.filter_append,
      htaken, List.flatMap_singleton]
    exact taken_retried hlost

end Retries

end Broker
end Brokerage
