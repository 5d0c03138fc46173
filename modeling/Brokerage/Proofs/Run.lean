/-
# Runs

A run of a broker is any sequence of insertions and ticks, whatever the service
answers. What every call keeps, a run keeps (`Broker.after_invariant`). Where
every call balances what comes in against what goes out and what stays, so does a
run (`Broker.gather_balance`).

Key definitions: `Call`, `Answer`, `Broker.perform`, `Broker.after`,
`Broker.gather`, `Broker.answers`, `Broker.outcomes`.
Key theorems: `Broker.connect_ok`, `Broker.after_invariant`,
`Broker.gather_balance`, `Broker.gather_record`.
-/
import Brokerage.Proofs.Tick

namespace Brokerage

inductive Call (α : Type) [Amount α] where
  | insert (order : Order α)
  | tick

inductive Answer (α : Type) [Amount α] where
  | inserted (outcome : Except (BrokerFault α) Unit)
  | ticked (outcome : Except (BrokerFault α) (TickReport α))

def Answer.outcome? {α : Type} [Amount α] :
    Answer α → Option (Except (BrokerFault α) (TickReport α))
  | .inserted _ => none
  | .ticked outcome => some outcome

namespace Broker

variable {σ α : Type} [Amount α] [Service σ α]

def perform (b : Broker σ α) : Call α → Answer α × Broker σ α
  | .insert order => (.inserted (b.insert order).1, (b.insert order).2)
  | .tick => (.ticked b.tick.1, b.tick.2)

/-- The broker after some calls. -/
def after (b : Broker σ α) : List (Call α) → Broker σ α
  | [] => b
  | call :: calls => (b.perform call).2.after calls

/-- What `f` sees at each call of a run, put together. -/
def gather {γ : Type} (f : Broker σ α → Call α → List γ) :
    Broker σ α → List (Call α) → List γ
  | _, [] => []
  | b, call :: calls => f b call ++ gather f (b.perform call).2 calls

/-- The answers to the calls of a run. -/
def answers (b : Broker σ α) (calls : List (Call α)) : List (Answer α) :=
  gather (fun b call => [(b.perform call).1]) b calls

theorem after_append (b : Broker σ α) : ∀ calls more : List (Call α),
    b.after (calls ++ more) = (b.after calls).after more := by
  intro calls
  induction calls generalizing b with
  | nil => intro more; rfl
  | cons call calls ih => intro more; exact ih _ more

theorem gather_append {γ : Type} (f : Broker σ α → Call α → List γ) (b : Broker σ α) :
    ∀ calls more : List (Call α),
      gather f b (calls ++ more) = gather f b calls ++ gather f (b.after calls) more := by
  intro calls
  induction calls generalizing b with
  | nil => intro more; rfl
  | cons call calls ih =>
    intro more
    show f b call ++ gather f _ (calls ++ more) = _
    rw [ih, ← List.append_assoc]
    rfl

/-- The outcomes of the ticks of a run. -/
def outcomes (b : Broker σ α) (calls : List (Call α)) :
    List (Except (BrokerFault α) (TickReport α)) :=
  (b.answers calls).filterMap Answer.outcome?

theorem outcomes_append (b : Broker σ α) (calls more : List (Call α)) :
    b.outcomes (calls ++ more) = b.outcomes calls ++ (b.after calls).outcomes more := by
  unfold outcomes answers
  rw [gather_append, List.filterMap_append]

theorem outcomes_cons (b : Broker σ α) (call : Call α) (calls : List (Call α)) :
    b.outcomes (call :: calls) =
      (b.perform call).1.outcome?.toList ++ (b.perform call).2.outcomes calls := by
  cases call <;> rfl

theorem outcomes_tick (b : Broker σ α) (calls : List (Call α)) :
    b.outcomes (.tick :: calls) = b.tick.1 :: b.tick.2.outcomes calls := rfl

/-! ### How a run starts and what it keeps -/

/-- A session starts with its cash, an empty log and nothing held. -/
theorem connect_ok {setup : Setup α} {service : σ} {b : Broker σ α}
    (h : connect setup service = .ok b) :
    ∃ cash, setup.cash = some cash ∧ ¬ cash < 0 ∧ b.account = Account.ofCash cash ∧
      b.tradeLog = [] ∧ b.held = none ∧ b.finished = false ∧ b.values = [] ∧
      b.insertedLastTick = [] ∧ ∃ now, b.journal = [.sessionStarted now] := by
  unfold connect at h
  cases hs : checkSetup setup with
  | error fault => rw [hs] at h; cases h
  | ok checked =>
    obtain ⟨cash, request⟩ := checked
    have hcash : setup.cash = some cash ∧ ¬ cash < 0 := by
      unfold checkSetup at hs
      cases hc : setup.cash with
      | none => rw [hc] at hs; cases hs
      | some c =>
        simp only [hc] at hs
        split at hs
        · cases hs
        · rename_i hgood
          cases hr : setup.request with
          | none => rw [hr] at hs; cases hs
          | some r =>
            rw [hr] at hs
            cases hs
            simp only [Bool.or_eq_true, decide_eq_true_eq, not_or] at hgood
            exact ⟨rfl, hgood.2⟩
    rw [hs] at h
    rcases ho : Service.openSession request service with ⟨fault | opening, s⟩
    · simp only [ho] at h
      cases h
    · simp only [ho] at h
      cases h
      exact ⟨cash, hcash.1, hcash.2, rfl, rfl, rfl, rfl, rfl, rfl, _, rfl⟩

omit [Service σ α] in
theorem insert_eq (b : Broker σ α) (order : Order α) :
    (b.insert order).2 = b ∨
      (b.insert order).2 = { b with account.blotter := b.account.blotter.enqueue order } := by
  unfold insert
  split
  · exact .inl rfl
  · exact .inr rfl

/-- **What every call keeps, a run keeps.** -/
theorem after_invariant {P : Broker σ α → Prop} (hinsert : ∀ b order, P b → P (b.insert order).2)
    (htick : ∀ b, P b → P b.tick.2) : ∀ (calls : List (Call α)) (b : Broker σ α),
      P b → P (b.after calls)
  | [], _, hb => hb
  | .insert order :: calls, b, hb =>
    after_invariant hinsert htick calls _ (hinsert b order hb)
  | .tick :: calls, b, hb => after_invariant hinsert htick calls _ (htick b hb)

/-- A balance of one call is a balance of a run: what was there and what came in
is what went out and what is there. -/
theorem gather_balance {γ : Type} {stock : Broker σ α → List γ}
    {income outgo : Broker σ α → Call α → List γ}
    (h : ∀ b call, stock b ++ income b call = outgo b call ++ stock (b.perform call).2) :
    ∀ (calls : List (Call α)) (b : Broker σ α),
      stock b ++ gather income b calls = gather outgo b calls ++ stock (b.after calls)
  | [], b => by simp [gather, after]
  | call :: calls, b => by
    have ih := gather_balance h calls (b.perform call).2
    calc stock b ++ (income b call ++ gather income (b.perform call).2 calls)
        = outgo b call ++ (stock (b.perform call).2 ++
            gather income (b.perform call).2 calls) := by
          rw [← List.append_assoc, h, List.append_assoc]
      _ = outgo b call ++ gather outgo (b.perform call).2 calls ++
            stock ((b.perform call).2.after calls) := by
          rw [ih, List.append_assoc]

/-- What two observers see, each on its own. -/
theorem gather_append_perm {γ : Type} (f g : Broker σ α → Call α → List γ) :
    ∀ (calls : List (Call α)) (b : Broker σ α),
      (gather (fun b call => f b call ++ g b call) b calls).Perm
        (gather f b calls ++ gather g b calls)
  | [], _ => List.Perm.refl _
  | call :: calls, b => by
    have ih := gather_append_perm f g calls (b.perform call).2
    simp only [gather, List.append_assoc]
    refine List.Perm.append_left _ ?_
    refine (List.Perm.append_left _ ih).trans ?_
    rw [← List.append_assoc, ← List.append_assoc]
    exact List.Perm.append_right _ List.perm_append_comm

/-- What is made of what is seen at each call. -/
theorem gather_flatMap {γ δ : Type} (f : Broker σ α → Call α → List γ) (g : γ → List δ) :
    ∀ (calls : List (Call α)) (b : Broker σ α),
      gather (fun b call => (f b call).flatMap g) b calls = (gather f b calls).flatMap g
  | [], _ => rfl
  | call :: calls, b => by
    rw [gather, gather, gather_flatMap f g calls, List.flatMap_append]

theorem mem_gather {γ : Type} {f : Broker σ α → Call α → List γ} {x : γ} :
    ∀ {calls : List (Call α)} {b : Broker σ α}, x ∈ gather f b calls → ∃ c call, x ∈ f c call
  | [], _, h => by cases h
  | call :: calls, b, h => by
    rcases List.mem_append.mp h with h | h
    · exact ⟨b, call, h⟩
    · exact mem_gather h

/-- What one call adds to a record, a run adds call by call. -/
theorem gather_record {γ : Type} {f : Broker σ α → List γ}
    {entered : Broker σ α → Call α → List γ}
    (h : ∀ b call, f (b.perform call).2 = f b ++ entered b call) :
    ∀ (calls : List (Call α)) (b : Broker σ α), f (b.after calls) = f b ++ gather entered b calls
  | [], b => by simp [gather, after]
  | call :: calls, b => by
    have ih := gather_record h calls (b.perform call).2
    rw [after, ih, h, gather, List.append_assoc]

end Broker
end Brokerage
