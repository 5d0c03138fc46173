/-
# The trade log accounts for the ledger

The ledger of a broker is its initial cash with the trade log booked upon it, in
every state that a run can reach: fills are logged when they are booked, and an
execution that the account refuses is neither (`Broker.replays_after`). Every
execution that arrives is logged, refused or still held, and no two of these
(`Broker.arrivals_perm`). So a position is made by the logged fills in its symbol,
and cash never goes below zero.

Key definitions: `Broker.Replays`, `Broker.arrivals`, `Broker.refusals`,
`Broker.executionsHeld`.
Key theorems: `Broker.replays_after`, `Broker.arrivals_perm`,
`Broker.tradeLog_accounts_for_ledger`.
-/
import Brokerage.Proofs.Exact
import Brokerage.Proofs.Position
import Brokerage.Proofs.Run

namespace Brokerage

variable {σ α : Type} [Amount α]

namespace Broker

/-! ### The ledger is the log, booked -/

/-- The trade log of `b`, booked upon `cash`, gives its ledger. -/
def Replays (cash : α) (b : Broker σ α) : Prop :=
  (Ledger.ofCash cash).replay b.tradeLog = .ok b.account.ledger

theorem Replays.of_same {cash : α} {b c : Broker σ α} (hb : Replays cash b)
    (h : (c.tradeLog, c.account.ledger) = (b.tradeLog, b.account.ledger)) : Replays cash c := by
  obtain ⟨hlog, hledger⟩ := Prod.mk.inj h
  unfold Replays
  rw [hlog, hledger]
  exact hb

theorem replays_takeItem {cash : α} {b c : Broker σ α} {i : StepItem α} (hb : Replays cash b)
    (h : b.takeItem i = .ok c) : Replays cash c := by
  obtain ⟨a, ha, rfl⟩ := takeItem_ok h
  cases i with
  | execution e =>
    show (Ledger.ofCash cash).replay (b.tradeLog ++ [e]) = .ok a.ledger
    rw [Ledger.replay_snoc hb, Account.reconcile_ledger ha]
  | placement id order =>
    show (Ledger.ofCash cash).replay b.tradeLog = .ok a.ledger
    rw [Account.place_ledger ha]
    exact hb

variable [Service σ α]

theorem replays_after {cash : α} (calls : List (Call α)) {b : Broker σ α}
    (hb : Replays cash b) : Replays cash (b.after calls) := by
  refine after_invariant (fun b order hb => ?_) (fun b hb => ?_) calls b hb
  · rcases b.insert_eq order with h | h <;> rw [h] <;> exact hb
  · refine tick_invariant (fun b hb => ?_) (fun _ _ _ => replays_takeItem) (fun _ _ hb => hb)
      (fun b step report hb => ?_) b hb
    · exact hb.of_same (b.due_keeps (fun b => (b.tradeLog, b.account.ledger)) (fun _ _ _ => rfl)
        (fun _ _ => rfl))
    · exact hb.of_same (b.conclude_keeps (fun b => (b.tradeLog, b.account.ledger))
        (fun _ _ _ _ _ _ _ => rfl) step report)

/-! ### What becomes of an execution -/

/-- The executions that the rest of a step still holds. -/
def executionsHeld (b : Broker σ α) : List (Execution α) :=
  match b.held with
  | some step => step.executed
  | none => []

/-- The executions that a call brings: those of a new step. -/
def arriving (b : Broker σ α) : Call α → List (Execution α)
  | .insert _ => []
  | .tick =>
    match b.held, b.due.1 with
    | none, .ok (step, _) => step.executed
    | _, _ => []

/-- The executions that a call books and logs. -/
def logging (b : Broker σ α) : Call α → List (Execution α)
  | .insert _ => []
  | .tick =>
    match b.due with
    | (.ok (step, _), c) => executionsIn (taken takeItem c step.items)
    | (.error _, _) => []

/-- The execution that the account refuses in a call, if there is one. -/
def refusing (b : Broker σ α) : Call α → List (Execution α)
  | .insert _ => []
  | .tick =>
    match b.due with
    | (.ok (step, _), c) => executionsIn (stuck takeItem c step.items).toList
    | (.error _, _) => []

/-- The executions of all steps that a run has begun to apply. -/
def arrivals (b : Broker σ α) (calls : List (Call α)) : List (Execution α) :=
  gather arriving b calls

/-- The executions that were refused in a run. -/
def refusals (b : Broker σ α) (calls : List (Call α)) : List (Execution α) :=
  gather refusing b calls

/-- A step that is due brings its executions, or they were held. -/
theorem executed_of_due {b c : Broker σ α} {step : Step α} {report : TickReport α}
    (h : b.due = (.ok (step, report), c)) :
    b.executionsHeld ++ b.arriving .tick = step.executed := by
  unfold executionsHeld arriving
  rcases due_ok h with ⟨-, ⟨hheld, -, -⟩ | ⟨hfree, -, -⟩⟩
  · rw [hheld]
    exact List.append_nil _
  · rw [hfree, h]
    rfl

theorem due_tradeLog {b c : Broker σ α} {d : Except (BrokerFault α) (Step α × TickReport α)}
    (h : b.due = (d, c)) : c.tradeLog = b.tradeLog := by
  have hlog := b.due_keeps (·.tradeLog) (fun _ _ _ => rfl) (fun _ _ => rfl)
  rw [h] at hlog
  exact hlog

omit [Service σ α] in
/-- Applying a step logs its executions up to one that is refused, and holds those
after it. -/
theorem applyStep_executions {b : Broker σ α} (hfree : b.held = none) (step : Step α)
    (report : TickReport α) :
    (b.applyStep step report).2.tradeLog =
        b.tradeLog ++ executionsIn (taken takeItem b step.items) ∧
      step.executed = executionsIn (taken takeItem b step.items) ++
        executionsIn (stuck takeItem b step.items).toList ++
          (b.applyStep step report).2.executionsHeld := by
  rcases b.applyStep_cases step report with
    ⟨done, i, rest, cause, c, hi, hf, hs, ha⟩ | ⟨c, hf, ha⟩
  · obtain ⟨htaken, hstuck⟩ := taken_stuck_stopped hf hs rest
    have hsplit : step.executed = executionsIn done ++ (executionsIn [i] ++ executionsIn rest) := by
      rw [← Step.executionsIn_items, hi, executionsIn_append, ← executionsIn_append [i] rest]
      rfl
    rw [hi, htaken, hstuck, ha, hsplit, List.append_assoc]
    exact ⟨(feed_logs hf).1, rfl⟩
  · obtain ⟨htaken, hstuck⟩ := taken_stuck_all hf
    have hkept := c.conclude_keeps (fun b => (b.tradeLog, b.held)) (fun _ _ _ _ _ _ _ => rfl)
      step { report with executed := step.executed, inserted := step.inserted.map (·.1) }
    rw [← ha] at hkept
    obtain ⟨hlog, hheld⟩ := Prod.mk.inj hkept
    have hcheld := feed_keeps (·.held) (fun b a i => by cases i <;> rfl) step.items b
    rw [hf, hfree] at hcheld
    have hnone : (b.applyStep step report).2.executionsHeld = [] := by
      unfold executionsHeld
      rw [hheld, hcheld]
    rw [htaken, hstuck, hlog, hnone, (feed_logs hf).1, Step.executionsIn_items, List.append_nil]
    exact ⟨rfl, (List.append_nil _).symm⟩

/-- **A tick logs, refuses or holds** what was held and what arrives, in order. -/
theorem tick_executions (b : Broker σ α) :
    b.tick.2.tradeLog = b.tradeLog ++ b.logging .tick ∧
    b.executionsHeld ++ b.arriving .tick =
      (b.logging .tick ++ b.refusing .tick) ++ b.tick.2.executionsHeld := by
  rw [tick_eq]
  rcases hd : b.due with ⟨fault | ⟨step, report⟩, c⟩
  · have hb : b.arriving .tick = [] := by
      unfold arriving
      rw [hd]
      cases b.held <;> rfl
    have hheld : c.held = b.held := by
      rcases due_error hd with ⟨-, -, rfl⟩ | ⟨-, -, s, rfl, -⟩ <;> rfl
    rw [hb]
    unfold logging refusing executionsHeld
    simp only [hd, List.append_nil, List.nil_append, hheld, due_tradeLog hd, and_self]
  · rw [executed_of_due hd, ← due_tradeLog hd]
    unfold logging refusing
    simp only [hd]
    exact applyStep_executions (due_held hd) step report

theorem perform_executions (b : Broker σ α) : ∀ call : Call α,
    (b.perform call).2.tradeLog = b.tradeLog ++ b.logging call ∧
    b.executionsHeld ++ b.arriving call =
      (b.logging call ++ b.refusing call) ++ (b.perform call).2.executionsHeld
  | .insert order => by
    rcases b.insert_eq order with h | h <;> unfold perform <;> rw [h] <;>
      exact ⟨(List.append_nil _).symm, List.append_nil _⟩
  | .tick => b.tick_executions

/-- **Every execution that arrives is logged, refused or held.** -/
theorem arrivals_perm {b : Broker σ α} (hlog : b.tradeLog = []) (hfree : b.held = none)
    (calls : List (Call α)) : (b.arrivals calls).Perm
      ((b.after calls).tradeLog ++ b.refusals calls ++ (b.after calls).executionsHeld) := by
  have hbalance := gather_balance (fun b call => (perform_executions b call).2) calls b
  have hrecord := gather_record (fun b call => (perform_executions b call).1) calls b
  have hnone : b.executionsHeld = [] := by
    unfold executionsHeld
    rw [hfree]
  rw [hnone, List.nil_append] at hbalance
  rw [hlog, List.nil_append] at hrecord
  unfold arrivals refusals
  rw [hbalance, hrecord]
  exact List.Perm.append_right _ (gather_append_perm logging refusing calls b)

/-- **The trade log accounts for the ledger.** In every state that a run can reach
the ledger is the initial cash with the log booked upon it, and the cancels and
modifies of the log can be left out. What was refused is not in the log: the
executions that arrived are those logged, those refused and those still held. The
fills in a symbol make the position in it, whatever else two runs have been
through, and cash is never below zero. -/
theorem tradeLog_accounts_for_ledger {setup : Setup α} {service : σ} {b : Broker σ α}
    (h : connect setup service = .ok b) (calls : List (Call α)) :
    (∃ cash, setup.cash = some cash ∧
      (Ledger.ofCash cash).replay (b.after calls).tradeLog = .ok (b.after calls).account.ledger ∧
      (Ledger.ofCash cash).replay ((b.after calls).tradeLog.filter fun e => e.kind.isFill) =
        .ok (b.after calls).account.ledger) ∧
    (b.arrivals calls).Perm
      ((b.after calls).tradeLog ++ b.refusals calls ++ (b.after calls).executionsHeld) ∧
    (∀ {τ : Type} [Service τ α] {setup' : Setup α} {service' : τ} {b' : Broker τ α},
      connect setup' service' = .ok b' → ∀ calls' symbol,
        fillsIn symbol (b'.after calls').tradeLog = fillsIn symbol (b.after calls).tradeLog →
          (b'.after calls').account.ledger.position symbol =
            (b.after calls).account.ledger.position symbol) ∧
    ¬ (b.after calls).account.ledger.cash < 0 := by
  obtain ⟨cash, hcash, hpos, haccount, hlog, hfree, -⟩ := connect_ok h
  have hreplays : ∀ {τ : Type} [Service τ α] {setup' : Setup α} {service' : τ} {b' : Broker τ α},
      connect setup' service' = .ok b' → ∀ calls', ∃ cash, Replays cash (b'.after calls') := by
    intro τ _ setup' service' b' h' calls'
    obtain ⟨cash', -, -, haccount', hlog', -⟩ := connect_ok h'
    exact ⟨cash', replays_after calls' (by unfold Replays; rw [hlog', haccount']; rfl)⟩
  have hb : Replays cash (b.after calls) :=
    replays_after calls (by unfold Replays; rw [hlog, haccount]; rfl)
  refine ⟨⟨cash, hcash, hb, (Ledger.replay_fills _ _).trans hb⟩, arrivals_perm hlog hfree calls,
    ?_, Ledger.replay_cash_not_neg hb hpos⟩
  intro τ _ setup' service' b' h' calls' symbol hfills
  obtain ⟨cash', hb'⟩ := hreplays h' calls'
  rw [Ledger.position_replay symbol hb', Ledger.position_replay symbol hb, hfills,
    Ledger.position_ofCash, Ledger.position_ofCash]

/-- In the sample session the second buy is refused. A tick more or less makes
no difference to the position. -/
theorem sample_tradeLog_accounts :
    (sampleBroker.after [.tick, .tick, .tick]).tradeLog.map (·.order) = [⟨1⟩, ⟨3⟩] ∧
    (sampleBroker.refusals [.tick, .tick, .tick]).map (·.order) = [⟨2⟩] ∧
    (∃ cash, sampleSetup.cash = some cash ∧
      (Ledger.ofCash cash).replay (sampleBroker.after [.tick, .tick, .tick]).tradeLog =
        .ok (sampleBroker.after [.tick, .tick, .tick]).account.ledger) ∧
    (sampleBroker.after [.tick, .tick]).account.ledger.position sampleSymbol =
      (sampleBroker.after [.tick, .tick, .tick]).account.ledger.position sampleSymbol ∧
    ¬ (sampleBroker.after [.tick, .tick, .tick]).account.ledger.cash < 0 := by
  obtain ⟨⟨cash, hcash, hreplay, -⟩, -, hposition, hcash'⟩ :=
    tradeLog_accounts_for_ledger connect_sample [.tick, .tick, .tick]
  refine ⟨by decide +kernel, by decide +kernel, ⟨cash, hcash, hreplay⟩, ?_, hcash'⟩
  exact hposition connect_sample [.tick, .tick] sampleSymbol (by decide +kernel)

end Broker
end Brokerage
