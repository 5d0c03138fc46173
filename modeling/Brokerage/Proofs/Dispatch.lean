/-
# Dispatching the pending orders

A fresh tick takes the pending orders out. Some are rejected; the others are one
batch, and the service acknowledges the batch, refuses it or cannot be reached. In
the last case, and in no other, the tick hands the batch back. No other call does
anything of the kind. `Broker.dispatch` tells what a call dispatches, and the
lemmas here say that this is what the call does: to the pending orders, before the
observer, at the service and towards the caller.

Key definitions: `Submission`, `Dispatch`, `Broker.dispatch`, `Broker.intake`,
`handedBack`.
Key theorems: `Broker.fresh_or_stale`, `Broker.perform_pending`,
`Broker.perform_rejections`, `Broker.perform_submissions`,
`Broker.perform_handedBack`, `Dispatch.drained_perm`.
-/
import Brokerage.Proofs.Retry
import Brokerage.Proofs.Tape

namespace Brokerage

variable {σ α : Type} [Amount α]

/-- A batch that was submitted, and the answer to it. -/
structure Submission (α : Type) [Amount α] where
  session : SessionId
  orders : List (Order α)
  answer : Except ServiceFault Unit

namespace Submission

/-- The orders, if the service took them. -/
def acknowledged (s : Submission α) : List (Order α) :=
  match s.answer with
  | .ok () => s.orders
  | .error _ => []

/-- The orders, if no answer came. -/
def unreached (s : Submission α) : List (Order α) :=
  match s.answer with
  | .error (.transport _) => s.orders
  | _ => []

/-- The orders, if the service would not take them. -/
def refused (s : Submission α) : List (Order α) :=
  match s.answer with
  | .error (.protocol _) => s.orders
  | _ => []

theorem orders_eq (s : Submission α) : s.orders = s.acknowledged ++ s.unreached ++ s.refused := by
  unfold acknowledged unreached refused
  rcases s.answer with (reason | reason) | _ <;> simp

end Submission

def ServiceCall.submission? : ServiceCall α → Option (Submission α)
  | .submit session orders answer => some ⟨session, orders, answer⟩
  | _ => none

/-- The batches on the tape. -/
def Taped.submissions (t : Taped σ α) : List (Submission α) :=
  t.tape.filterMap ServiceCall.submission?

def Event.rejection? : Event α → Option (Rejection α)
  | .orderRejected rejection => some rejection
  | _ => none

/-- The orders that a tick hands back to be inserted again. -/
def handedBack : Except (BrokerFault α) (TickReport α) → List (Order α)
  | .error (.transport _ unsent) => unsent
  | _ => []

/-- What a tick made of the pending orders: the ledger that judged them, the
answer to their batch and the outcome of the tick. -/
structure Dispatch (α : Type) [Amount α] where
  session : SessionId
  ledger : Ledger α
  drained : List (Order α)
  answer : Except ServiceFault Unit
  outcome : Except (BrokerFault α) (TickReport α)

namespace Dispatch

/-- The drained orders to which the ledger does not object. -/
def accepted (d : Dispatch α) : List (Order α) :=
  d.drained.filter fun order => (d.ledger.refusal? order).isNone

/-- The other drained orders, each with the objection. -/
def rejected (d : Dispatch α) : List (Rejection α) :=
  d.drained.filterMap fun order => (d.ledger.refusal? order).map fun reason => ⟨order, reason⟩

/-- The accepted orders make one batch, or none if there are none. -/
def batches (d : Dispatch α) : List (Submission α) :=
  if d.accepted.isEmpty then [] else [⟨d.session, d.accepted, d.answer⟩]

theorem batches_orders (d : Dispatch α) : d.batches.flatMap (·.orders) = d.accepted := by
  unfold batches
  cases h : d.accepted with
  | nil => rfl
  | cons order orders => simp

theorem rejected_orders (l : Ledger α) : ∀ orders : List (Order α),
    (orders.filterMap fun order => (l.refusal? order).map fun reason =>
      (⟨order, reason⟩ : Rejection α)).map (·.order) =
        orders.filter fun order => !(l.refusal? order).isNone
  | [] => rfl
  | order :: orders => by
    have ih := rejected_orders l orders
    cases h : l.refusal? order with
    | none =>
      rw [List.filterMap_cons_none (by rw [h]; rfl), List.filter_cons_of_neg (by rw [h]; simp), ih]
    | some reason =>
      rw [List.filterMap_cons_some (by rw [h]; rfl), List.filter_cons_of_pos (by rw [h]; rfl),
        List.map_cons, ih]

/-- A drained order is accepted or rejected. -/
theorem drained_perm (d : Dispatch α) :
    d.drained.Perm (d.accepted ++ d.rejected.map (·.order)) := by
  unfold accepted rejected
  rw [rejected_orders]
  exact (List.filter_append_perm _ _).symm

end Dispatch

namespace Broker

/-- The rejections that the observer was shown. -/
def rejections (b : Broker σ α) : List (Rejection α) :=
  b.journal.filterMap Event.rejection?

/-- The order that a call brings, if it is accepted. -/
def intake (b : Broker σ α) : Call α → List (Order α)
  | .insert order =>
    match (b.insert order).1 with
    | .ok () => [order]
    | .error _ => []
  | .tick => []

theorem applyStep_rejections (b : Broker σ α) (step : Step α) (report : TickReport α) :
    (b.applyStep step report).2.rejections = b.rejections := by
  have hnote : ∀ (b : Broker σ α) (event : Event α), event.rejection? = none →
      (b.note [event]).rejections = b.rejections := by
    intro b event h
    unfold rejections note
    rw [List.filterMap_append, List.filterMap_cons_none h, List.filterMap_nil, List.append_nil]
  refine applyStep_keeps rejections (fun b a i => ?_) (fun _ _ => rfl) (fun b step report => ?_)
    b step report
  · cases i <;> exact hnote _ _ rfl
  · rcases b.conclude_cases step report with ⟨-, hc⟩ | ⟨-, symbol, -, hc⟩ | ⟨-, value, -, hc⟩
    · rw [hc]
      exact hnote _ _ rfl
    · rw [hc]
      rfl
    · rw [hc]
      exact hnote _ _ rfl

section

variable [Service σ α]

/-- What a fresh tick makes of the pending orders. -/
def dispatched (b : Broker σ α) : Dispatch α where
  session := b.session
  ledger := b.account.ledger
  drained := b.account.blotter.pending
  answer := b.submission.1
  outcome := b.tick.1

/-- The dispatch of a call: a tick has one, unless it goes on with a held step or
comes too late. -/
def dispatch (b : Broker σ α) : Call α → List (Dispatch α)
  | .insert _ => []
  | .tick => if b.finished || b.held.isSome then [] else [b.dispatched]

/-! ### One call -/

/-- What cannot be retried hands nothing back. -/
theorem handedBack_eq_nil {outcome : Except (BrokerFault α) (TickReport α)}
    (h : ∀ fault, outcome = .error fault → fault.retryable = false) : handedBack outcome = [] := by
  rcases outcome with fault | report
  · have hfault := h fault rfl
    cases fault with
    | transport reason unsent => cases hfault
    | _ => rfl
  · rfl

/-- A tick that goes on with a held step, or comes too late, sends nothing. -/
theorem fresh_or_stale (b : Broker σ α) :
    (b.finished = false ∧ b.held = none ∧ b.dispatch .tick = [b.dispatched]) ∨
      (b.dispatch .tick = [] ∧ b.due.2.account = b.account ∧ b.due.2.journal = b.journal ∧
        b.due.2.service = b.service ∧ handedBack b.tick.1 = []) := by
  unfold dispatch
  cases hf : b.finished with
  | true =>
    rw [tick_eq, due_finished hf]
    exact .inr ⟨rfl, rfl, rfl, rfl, rfl⟩
  | false =>
    cases hh : b.held with
    | none => exact .inl ⟨rfl, rfl, rfl⟩
    | some step =>
      rw [tick_eq, due_resumed hf hh]
      exact .inr ⟨rfl, rfl, rfl, rfl, handedBack_eq_nil fun _ h => applyStep_not_retryable h⟩

/-- Applying a step has no part in the flow of orders. -/
theorem tick_after_due (b : Broker σ α) :
    b.tick.2.account.blotter.pending = b.due.2.account.blotter.pending ∧
      b.tick.2.service = b.due.2.service ∧ b.tick.2.rejections = b.due.2.rejections := by
  rw [tick_eq]
  rcases b.due with ⟨fault | ⟨step, report⟩, c⟩
  · exact ⟨rfl, rfl, rfl⟩
  · have hkept := c.applyStep_recast_self step report
    exact ⟨(congrArg (·.account.blotter.pending) hkept).symm, (congrArg (·.service) hkept).symm,
      c.applyStep_rejections step report⟩

/-- **Pending orders balance.** -/
theorem perform_pending (b : Broker σ α) : ∀ call : Call α,
    b.account.blotter.pending ++ b.intake call =
      (b.dispatch call).flatMap (·.drained) ++ (b.perform call).2.account.blotter.pending
  | .insert order => by
    unfold perform intake dispatch insert
    cases b.finished with
    | true => exact List.append_nil _
    | false => rfl
  | .tick => by
    obtain ⟨hpending, -, -⟩ := b.tick_after_due
    show b.account.blotter.pending ++ [] = _ ++ b.tick.2.account.blotter.pending
    rw [hpending]
    rcases b.fresh_or_stale with ⟨hactive, hfree, hd⟩ | ⟨hd, haccount, -⟩
    · rw [hd, (due_fresh hactive hfree).1]
      exact congrArg (· ++ []) (List.append_nil _).symm
    · rw [hd, haccount]
      exact List.append_nil _

theorem flushEvents_rejections (b : Broker σ α) :
    b.flushEvents.filterMap Event.rejection? = b.dispatched.rejected := by
  have hrejected : b.sifted.rejected = b.dispatched.rejected := Ledger.sift_rejected _ _
  have hsome : ∀ rejections : List (Rejection α),
      (rejections.map Event.orderRejected).filterMap Event.rejection? = rejections := by
    intro rejections
    rw [List.filterMap_map]
    exact List.filterMap_some
  unfold flushEvents
  rw [List.filterMap_append, hsome, hrejected]
  split <;> exact List.append_nil _

/-- **The observer is shown every rejection,** once and in order. -/
theorem perform_rejections (b : Broker σ α) : ∀ call : Call α,
    (b.perform call).2.rejections = b.rejections ++ (b.dispatch call).flatMap (·.rejected)
  | .insert order => by
    unfold perform dispatch insert
    cases b.finished <;> exact (List.append_nil _).symm
  | .tick => by
    obtain ⟨-, -, hrejections⟩ := b.tick_after_due
    show b.tick.2.rejections = _
    rw [hrejections]
    unfold rejections
    rcases b.fresh_or_stale with ⟨hactive, hfree, hd⟩ | ⟨hd, -, hjournal, -⟩
    · rw [hd, (due_fresh hactive hfree).2.1, List.filterMap_append, flushEvents_rejections]
      exact congrArg (_ ++ ·) (List.append_nil _).symm
    · rw [hd, hjournal]
      exact (List.append_nil _).symm

theorem handedBack_ofService (cause : ServiceFault) (session : SessionId)
    (orders : List (Order α)) :
    handedBack (.error (.ofService cause orders)) =
      (⟨session, orders, .error cause⟩ : Submission α).unreached := by
  cases cause <;> rfl

/-- **A tick hands a batch back** if it could not be delivered, and nothing
otherwise. -/
theorem handedBack_tick {b : Broker σ α} (hactive : b.finished = false) (hfree : b.held = none) :
    handedBack b.tick.1 = b.dispatched.batches.flatMap (·.unreached) := by
  have haccepted : b.dispatched.accepted = b.accepted := rfl
  have hanswer : b.dispatched.answer = b.submission.1 := rfl
  unfold Dispatch.batches
  rw [haccepted, hanswer]
  rcases hs : b.submission with ⟨cause | _, s⟩
  · -- The batch was not taken: this is what ended the tick.
    obtain ⟨hsome, hsubmit⟩ := submission_error_iff.mp hs
    obtain ⟨htick, -⟩ := (retryable_iff hactive _).mpr
      ⟨hfree, .unsent cause s hsome hsubmit rfl⟩
    rw [htick, handedBack_ofService cause b.session]
    cases haccept : b.accepted with
    | nil => exact absurd haccept hsome
    | cons order orders => exact (List.append_nil _).symm
  · -- Whatever fails after the batch hands nothing back.
    have hnone : handedBack b.tick.1 = [] := by
      rcases htick : b.tick.1 with fault | report
      · cases hretry : fault.retryable with
        | false =>
          refine handedBack_eq_nil fun fault' h => ?_
          cases h
          exact hretry
        | true =>
          obtain ⟨-, hbreak⟩ := (retryable_iff hactive fault).mp ⟨htick, hretry⟩
          cases hbreak with
          | unsent cause t hsome hsubmit _ =>
            rw [submission_error_iff.mpr ⟨hsome, hsubmit⟩] at hs
            cases hs
          | unfetched cause _ _ _ _ hfault =>
            rw [hfault]
            cases cause <;> rfl
          | malformed _ _ _ _ _ _ hfault =>
            rw [hfault]
            rfl
      · rfl
    rw [hnone]
    split <;> rfl

/-- A call hands back what its dispatch tells. -/
theorem perform_handedBack (b : Broker σ α) : ∀ call : Call α,
    (b.perform call).1.outcome?.toList.flatMap handedBack =
      (b.dispatch call).flatMap fun d => handedBack d.outcome
  | .insert _ => rfl
  | .tick => by
    rcases b.fresh_or_stale with ⟨-, -, hd⟩ | ⟨hd, -, -, -, hnone⟩
    · rw [hd]
      rfl
    · rw [hd]
      show handedBack b.tick.1 ++ [] = []
      rw [hnone]
      rfl

/-! ### What the service is asked -/

theorem submission_tape (b : Broker (Taped σ α) α) :
    b.submission.2.submissions = b.service.submissions ++ b.dispatched.batches := by
  have haccepted : b.dispatched.accepted = b.accepted := rfl
  have hanswer : b.dispatched.answer = b.submission.1 := rfl
  unfold Dispatch.batches
  rw [haccepted, hanswer]
  unfold submission
  rw [sifted_accepted]
  cases b.accepted.isEmpty with
  | true => exact (List.append_nil _).symm
  | false => exact List.filterMap_append

theorem delivery_tape (b : Broker (Taped σ α) α) :
    b.delivery.2.submissions = b.submission.2.submissions := by
  unfold delivery
  rcases b.submission with ⟨fault | _, t⟩
  · rfl
  · show (t.tape ++ [_]).filterMap ServiceCall.submission? = _
    rw [List.filterMap_append]
    exact List.append_nil _

/-- **The service is asked to take the accepted orders,** in one batch, and is sent
no other order. -/
theorem perform_submissions (b : Broker (Taped σ α) α) : ∀ call : Call α,
    (b.perform call).2.service.submissions =
      b.service.submissions ++ (b.dispatch call).flatMap (·.batches)
  | .insert order => by
    unfold perform dispatch insert
    cases b.finished <;> exact (List.append_nil _).symm
  | .tick => by
    obtain ⟨-, hservice, -⟩ := b.tick_after_due
    show b.tick.2.service.submissions = _
    rw [hservice]
    rcases b.fresh_or_stale with ⟨hactive, hfree, hd⟩ | ⟨hd, -, -, hkept, -⟩
    · rw [hd, (due_fresh hactive hfree).2.2, delivery_tape, submission_tape]
      exact congrArg (_ ++ ·) (List.append_nil _).symm
    · rw [hd, hkept]
      exact (List.append_nil _).symm

end

end Broker
end Brokerage
