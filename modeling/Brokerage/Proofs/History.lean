/-
# What a broker has applied

The journal shows every execution that was reconciled and every order that came to
rest, in the order in which it happened. Together they are the history of the
account. A run adds to it, call by call, the items of the steps that were applied
(`Broker.history_after`), and its executions are the trade log
(`Broker.executionsIn_history`).

Key definitions: `Event.item?`, `Broker.history`, `Broker.applying`,
`Broker.applied`.
Key theorems: `Broker.perform_history`, `Broker.history_after`,
`Broker.executionsIn_history`.
-/
import Brokerage.Proofs.Run

namespace Brokerage

variable {σ α : Type} [Amount α]

/-- The item of a step that an event tells of. -/
def Event.item? : Event α → Option (StepItem α)
  | .resultApplied e _ => some (.execution e)
  | .orderResting id order => some (.placement id order)
  | _ => none

namespace Broker

/-- The items that were applied, the oldest first. -/
def history (b : Broker σ α) : List (StepItem α) :=
  b.journal.filterMap Event.item?

theorem history_note {b : Broker σ α} {event : Event α} (h : event.item? = none) :
    (b.note [event]).history = b.history := by
  unfold history note
  rw [List.filterMap_append, List.filterMap_cons_none h, List.filterMap_nil, List.append_nil]

theorem history_book (b : Broker σ α) (a : Account α) (i : StepItem α) :
    (b.book a i).history = b.history ++ [i] := by
  cases i <;> exact List.filterMap_append

theorem history_sent (b : Broker σ α) : b.sent.history = b.history := by
  have hrejected : ∀ rejections : List (Rejection α),
      (rejections.map Event.orderRejected).filterMap Event.item? = [] := by
    intro rejections
    rw [List.filterMap_map]
    exact List.filterMap_eq_nil_iff.mpr fun _ _ => rfl
  have hflush : b.flushEvents.filterMap Event.item? = [] := by
    unfold flushEvents
    rw [List.filterMap_append, hrejected]
    split <;> rfl
  unfold history sent
  rw [List.filterMap_append, hflush, List.append_nil]

theorem history_conclude (b : Broker σ α) (step : Step α) (report : TickReport α) :
    (b.conclude step report).2.history = b.history := by
  rcases b.conclude_cases step report with ⟨-, hc⟩ | ⟨-, symbol, -, hc⟩ | ⟨-, value, -, hc⟩
  · rw [hc]
    exact history_note rfl
  · rw [hc]
    rfl
  · rw [hc]
    exact history_note rfl

/-- Items that are taken are entered one by one. -/
theorem feed_history : ∀ {items : List (StepItem α)} {b c : Broker σ α},
    feed takeItem b items = (c, none) → c.history = b.history ++ items
  | [], b, c, h => by
    obtain ⟨rfl, -⟩ := Prod.mk.inj h
    exact (List.append_nil _).symm
  | i :: items, b, c, h => by
    cases hi : b.takeItem i with
    | error cause =>
      rw [feed_cons_error hi] at h
      cases h
    | ok d =>
      rw [feed_cons_ok hi] at h
      obtain ⟨a, -, rfl⟩ := takeItem_ok hi
      rw [feed_history h, history_book, List.append_assoc]
      rfl

/-- Applying a step enters its items up to one that fails. -/
theorem applyStep_history (b : Broker σ α) (step : Step α) (report : TickReport α) :
    (b.applyStep step report).2.history = b.history ++ taken takeItem b step.items := by
  rcases b.applyStep_cases step report with
    ⟨done, i, rest, cause, c, hi, hf, hs, ha⟩ | ⟨c, hf, ha⟩
  · obtain ⟨htaken, -⟩ := taken_stuck_stopped hf hs rest
    rw [ha, hi, htaken]
    show c.history = _
    exact feed_history hf
  · obtain ⟨htaken, -⟩ := taken_stuck_all hf
    rw [ha, htaken, history_conclude]
    exact feed_history hf

section

variable [Service σ α]

theorem due_history (b : Broker σ α) : b.due.2.history = b.history :=
  b.due_keeps history (fun b _ _ => b.history_sent) (fun _ _ => rfl)

/-- The items that a call applies: those of its step, up to one that fails. -/
def applying (b : Broker σ α) : Call α → List (StepItem α)
  | .insert _ => []
  | .tick =>
    match b.due with
    | (.ok (step, _), c) => taken takeItem c step.items
    | (.error _, _) => []

/-- The items that a run applies. -/
def applied (b : Broker σ α) (calls : List (Call α)) : List (StepItem α) :=
  gather applying b calls

theorem perform_history (b : Broker σ α) : ∀ call : Call α,
    (b.perform call).2.history = b.history ++ b.applying call
  | .insert order => by
    rcases b.insert_eq order with h | h <;> unfold perform <;> rw [h] <;>
      exact (List.append_nil _).symm
  | .tick => by
    have hdue := b.due_history
    show b.tick.2.history = _
    rw [tick_eq]
    unfold applying
    rcases hd : b.due with ⟨fault | ⟨step, report⟩, c⟩
    · rw [hd] at hdue
      rw [List.append_nil]
      exact hdue
    · rw [hd] at hdue
      rw [← hdue]
      exact c.applyStep_history step report

/-- **A run adds what it applies.** -/
theorem history_after (b : Broker σ α) (calls : List (Call α)) :
    (b.after calls).history = b.history ++ b.applied calls :=
  gather_record perform_history calls b

/-- **The trade log is the executions of the history.** -/
theorem executionsIn_history (calls : List (Call α)) {b : Broker σ α}
    (hb : b.tradeLog = executionsIn b.history) :
    (b.after calls).tradeLog = executionsIn (b.after calls).history := by
  have hsame : ∀ {c d : Broker σ α}, c.tradeLog = executionsIn c.history →
      (d.tradeLog, d.history) = (c.tradeLog, c.history) →
        d.tradeLog = executionsIn d.history := by
    intro c d hc h
    obtain ⟨hlog, hhistory⟩ := Prod.mk.inj h
    rw [hlog, hhistory, hc]
  have htake : ∀ (b : Broker σ α) i c, b.tradeLog = executionsIn b.history →
      b.takeItem i = .ok c → c.tradeLog = executionsIn c.history := by
    intro b i c hb h
    obtain ⟨a, -, rfl⟩ := takeItem_ok h
    rw [history_book, executionsIn_append, ← hb]
    cases i with
    | execution e => rfl
    | placement id order => exact (List.append_nil _).symm
  refine after_invariant (P := fun b => b.tradeLog = executionsIn b.history)
    (fun b order hb => ?_) (fun b hb => ?_) calls b hb
  · rcases b.insert_eq order with h | h <;> rw [h] <;> exact hb
  · refine tick_invariant (P := fun b => b.tradeLog = executionsIn b.history) (fun b hb => ?_)
      htake (fun _ _ hb => hb) (fun b step report hb => ?_) b hb
    · exact hsame hb (b.due_keeps (fun b => (b.tradeLog, b.history))
        (fun b _ _ => Prod.ext rfl b.history_sent) (fun _ _ => rfl))
    · refine hsame hb (Prod.ext ?_ (b.history_conclude step report))
      exact b.conclude_keeps (·.tradeLog) (fun _ _ _ _ _ _ _ => rfl) step report

end

end Broker
end Brokerage
