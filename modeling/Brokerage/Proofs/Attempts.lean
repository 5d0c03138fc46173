/-
# The last tick of a round

All ticks of a round but the last go unanswered (`Broker.round_last`), and such a tick
logs nothing. So what a round logs its last tick logs, and that is what a completed
tick reports (`Broker.logging_completed`). A round without a report is the last of its
replay (`Broker.advance_fault`), and what is seen of a replay is seen round by round
(`Broker.gather_rounds`).

Key definitions: `Broker.InVain`.
Key theorems: `Broker.round_last`, `Broker.round_of_mem`, `Broker.gather_rounds`,
`Broker.advance_fault`, `Broker.replay_error_iff`, `Broker.rounds_completed`,
`Broker.last_outcome`, `Broker.logging_completed`, `Broker.logging_round`,
`Round.finish_tradeLog`.
-/
import Brokerage.Proofs.Rounds
import Brokerage.Proofs.TradeLog

namespace Brokerage

variable {σ α : Type} [Amount α] [Service σ α]

namespace Broker

theorem gather_snoc {γ : Type} (f : Broker σ α → Call α → List γ) (b : Broker σ α)
    (calls : List (Call α)) (call : Call α) :
    gather f b (calls ++ [call]) = gather f b calls ++ f (b.after calls) call := by
  rw [gather_append]
  exact congrArg (gather f b calls ++ ·) (List.append_nil _)

/-- No tick among the calls gets an answer. -/
def InVain (b : Broker σ α) (calls : List (Call α)) : Prop :=
  ∀ outcome ∈ b.outcomes calls, unanswered outcome = true

theorem InVain.tick {b : Broker σ α} {calls : List (Call α)} (h : b.InVain (.tick :: calls)) :
    unanswered b.tick.1 = true ∧ b.tick.2.InVain calls := by
  unfold InVain at h ⊢
  rw [outcomes_tick] at h
  exact ⟨h _ List.mem_cons_self, fun outcome hmem => h outcome (List.mem_cons_of_mem _ hmem)⟩

/-- What is not seen at insertions has the property that it has at unanswered ticks. -/
theorem InVain.gather {γ : Type} {P : γ → Prop} {f : Broker σ α → Call α → List γ}
    (hinsert : ∀ b order, f b (.insert order) = [])
    (htick : ∀ b, unanswered b.tick.1 = true → ∀ x ∈ f b .tick, P x) :
    ∀ {calls : List (Call α)} {b : Broker σ α}, b.InVain calls → ∀ x ∈ gather f b calls, P x
  | [], _, _, _, hx => by cases hx
  | .insert order :: calls, b, h, x, hx => by
    rw [Broker.gather, hinsert] at hx
    exact InVain.gather hinsert htick (b := (b.insert order).2) h x hx
  | .tick :: calls, b, h, x, hx => by
    obtain ⟨hlost, hrest⟩ := h.tick
    rcases List.mem_append.mp hx with hx | hx
    · exact htick b hlost x hx
    · exact InVain.gather hinsert htick hrest x hx

/-- What is seen at most once at each tick is seen at most as often as ticks are
made. -/
theorem length_gather_le {γ : Type} {f : Broker σ α → Call α → List γ}
    (hinsert : ∀ b order, f b (.insert order) = []) (htick : ∀ b, (f b .tick).length ≤ 1) :
    ∀ (calls : List (Call α)) (b : Broker σ α),
      (gather f b calls).length ≤ (b.outcomes calls).length
  | [], _ => Nat.le_refl _
  | .insert order :: calls, b => by
    rw [gather, hinsert]
    exact length_gather_le hinsert htick calls (b.insert order).2
  | .tick :: calls, b => by
    have ih := length_gather_le hinsert htick calls b.tick.2
    rw [gather, List.length_append, outcomes_tick, List.length_cons, Nat.add_comm]
    exact Nat.add_le_add ih (htick b)

/-! ### The calls of a round -/

/-- Attempts end with a tick, and no more than the retries come before it. -/
theorem attempts_last : ∀ (left : Nat) (b : Broker σ α), ∃ before,
    b.attempts left = before ++ [.tick] ∧ (b.outcomes before).length ≤ left
  | 0, _ => ⟨[], rfl, Nat.le_refl 0⟩
  | left + 1, b => by
    unfold attempts
    cases h : unanswered b.tick.1 with
    | false => exact ⟨[], rfl, Nat.zero_le _⟩
    | true =>
      obtain ⟨-, hnone⟩ := after_inserts (handedBack b.tick.1) (active_of_unanswered h)
      obtain ⟨before, hbefore, hle⟩ := attempts_last left
        (b.tick.2.after ((handedBack b.tick.1).map .insert))
      refine ⟨.tick :: ((handedBack b.tick.1).map .insert ++ before), ?_, ?_⟩
      · simp only [if_true, hbefore, List.cons_append, List.append_assoc]
      · rw [outcomes_tick, outcomes_append, hnone]
        exact Nat.succ_le_succ hle

variable (plan : Plan α) (options : RunOptions)

/-- **A round is its last tick,** after attempts in vain of which there are no more than
retries. -/
theorem round_last (step : Nat) {b : Broker σ α} (hactive : b.finished = false) :
    let round := b.round plan options step
    ∃ before, round.calls = before ++ [.tick] ∧ b.InVain before ∧
      (b.outcomes before).length ≤ options.maxTickRetries ∧
      round.outcome = (b.after before).tick.1 := by
  obtain ⟨-, hnone⟩ := after_inserts (plan.ordersFor step) hactive
  obtain ⟨lost, houtcomes, hlost, -⟩ := outcomes_round plan options step hactive
  obtain ⟨before, hbefore, hle⟩ := attempts_last options.maxTickRetries
    (b.after ((plan.ordersFor step).map .insert))
  have hcalls : (b.round plan options step).calls =
      ((plan.ordersFor step).map .insert ++ before) ++ [.tick] := by
    show (plan.ordersFor step).map .insert ++ attempts _ _ = _
    rw [hbefore, List.append_assoc]
  rw [hcalls, outcomes_append] at houtcomes
  obtain ⟨hvain, hlast⟩ := List.append_inj' houtcomes rfl
  refine ⟨_, hcalls, ?_, ?_, (List.cons.inj hlast).1.symm⟩
  · unfold InVain
    rw [hvain]
    exact hlost
  · rw [outcomes_append, hnone]
    exact hle

variable {plan options}

theorem round_of_mem {round : Round σ α} {limit step : Nat} {b : Broker σ α}
    (h : round ∈ b.rounds plan options limit step) :
    ∃ (step' : Nat) (start : Broker σ α), start.finished = false ∧
      round = start.round plan options step' := by
  obtain ⟨_, _, hsplit⟩ := List.append_of_mem h
  obtain ⟨⟨hactive, -, hself⟩, -⟩ :=
    rounds_split (P := fun _ => True) (fun _ _ _ _ _ _ => trivial) trivial hsplit
  exact ⟨_, _, hactive, hself⟩

/-- **What is seen at the calls of a replay** is seen round by round. -/
theorem gather_rounds {γ : Type} (f : Broker σ α → Call α → List γ) :
    ∀ (limit step : Nat) (b : Broker σ α), let rounds := b.rounds plan options limit step
      gather f b (callsOf rounds) = rounds.flatMap fun round => gather f round.start round.calls
  | 0, _, _ => rfl
  | limit + 1, step, b => by
    cases hgo : b.finished || options.maxTicks.any (· ≤ step) with
    | true =>
      rw [rounds, hgo]
      rfl
    | false =>
      rw [rounds_active limit hgo]
      show gather f b ((b.round plan options step).calls ++ callsOf _) = _ ++ _
      rw [gather_append]
      refine congrArg (gather f b (b.round plan options step).calls ++ ·) ?_
      cases (b.round plan options step).outcome with
      | error fault => rfl
      | ok report => exact gather_rounds f limit (step + 1) _

/-- **A round without a report ends the replay** with its fault. -/
theorem advance_fault {round : Round σ α} {fault : BrokerFault α}
    (hfault : round.outcome = .error fault) :
    ∀ (limit : Nat) (summary : RunSummary α) (run : Run σ α),
      round ∈ run.broker.rounds plan options limit summary.ticks →
        (run.advance plan options limit summary).outcome = some (.error fault)
  | 0, _, _, h => by cases h
  | limit + 1, summary, run, h => by
    cases hgo : run.broker.finished || options.maxTicks.any (· ≤ summary.ticks) with
    | true =>
      rw [rounds, hgo] at h
      cases h
    | false =>
      obtain ⟨notes, hdone⟩ := advance_round plan options limit summary run hgo
      rw [rounds_active limit hgo] at h
      rw [hdone]
      cases ho : (run.broker.round plan options summary.ticks).outcome with
      | error other =>
        rw [ho] at h
        obtain rfl := List.mem_singleton.mp h
        rw [hfault] at ho
        cases ho
        rfl
      | ok report =>
        rw [ho] at h
        rcases List.mem_cons.mp h with rfl | h
        · rw [hfault] at ho
          cases ho
        · exact advance_fault hfault limit (summary.count report) _ h

/-- **A replay fails** with the fault of a round that was not completed, and in no other
way. -/
theorem advance_error_iff (fault : BrokerFault α) : ∀ (limit : Nat) (s : RunSummary α)
    (run : Run σ α), (run.advance plan options limit s).outcome = some (.error fault) ↔
      ∃ round ∈ run.broker.rounds plan options limit s.ticks, round.outcome = .error fault
  | 0, _, _ => ⟨fun h => (by cases h), fun ⟨_, hmem, _⟩ => (by cases hmem)⟩
  | limit + 1, s, run => by
    refine ⟨fun h => ?_, fun ⟨round, hmem, hfault⟩ => advance_fault hfault (limit + 1) s run hmem⟩
    cases hgo : run.broker.finished || options.maxTicks.any (· ≤ s.ticks) with
    | true =>
      obtain ⟨notes, hdone⟩ := advance_over plan options limit s run hgo
      rw [hdone] at h
      cases h
    | false =>
      obtain ⟨notes, hdone⟩ := advance_round plan options limit s run hgo
      rw [hdone] at h
      rw [rounds_active limit hgo]
      cases ho : (run.broker.round plan options s.ticks).outcome with
      | error other =>
        rw [ho] at h
        cases h
        exact ⟨_, List.mem_cons_self, ho⟩
      | ok report =>
        rw [ho] at h
        obtain ⟨round, hmem, hfault⟩ := (advance_error_iff fault limit _ _).mp h
        exact ⟨round, List.mem_cons_of_mem _ hmem, hfault⟩

theorem replay_error_iff (limit : Nat) (b : Broker σ α) (fault : BrokerFault α) :
    (replay plan options limit b).outcome = some (.error fault) ↔
      ∃ round ∈ b.rounds plan options limit 0, round.outcome = .error fault :=
  advance_error_iff fault limit _ ⟨b, _, []⟩

/-- A replay without an outcome has made all the rounds that it was given. -/
theorem length_rounds_of_cut : ∀ (limit : Nat) (s : RunSummary α) (run : Run σ α),
    (run.advance plan options limit s).outcome = none →
      (run.broker.rounds plan options limit s.ticks).length = limit
  | 0, _, _, _ => rfl
  | limit + 1, s, run, h => by
    cases hgo : run.broker.finished || options.maxTicks.any (· ≤ s.ticks) with
    | true =>
      obtain ⟨notes, hdone⟩ := advance_over plan options limit s run hgo
      rw [hdone] at h
      cases h
    | false =>
      obtain ⟨notes, hdone⟩ := advance_round plan options limit s run hgo
      rw [hdone] at h
      rw [rounds_active limit hgo, List.length_cons]
      cases ho : (run.broker.round plan options s.ticks).outcome with
      | error fault =>
        rw [ho] at h
        cases h
      | ok report =>
        rw [ho] at h
        exact congrArg (· + 1) (length_rounds_of_cut limit (s.count report) _ h)

/-- The rounds of a replay are completed, all of them or all but the last. -/
theorem rounds_completed (plan : Plan α) (options : RunOptions) (limit step : Nat)
    (b : Broker σ α) :
    let rounds := b.rounds plan options limit step
    (∀ round ∈ rounds, ∃ report, round.outcome = .ok report) ∨
      ∃ earlier last fault, rounds = earlier ++ [last] ∧
        (∀ round ∈ earlier, ∃ report, round.outcome = .ok report) ∧
        last.outcome = .error fault := by
  intro rounds
  by_cases hfailed : ∃ round ∈ rounds, ∃ fault, round.outcome = .error fault
  · obtain ⟨last, hmem, fault, hfault⟩ := hfailed
    obtain ⟨earlier, after, hsplit⟩ := List.append_of_mem hmem
    obtain ⟨-, hcompleted, -, hend⟩ :=
      rounds_split (P := fun _ => True) (fun _ _ _ _ _ _ => trivial) trivial hsplit
    obtain rfl := hend fault hfault
    exact .inr ⟨earlier, last, fault, hsplit, hcompleted, hfault⟩
  · refine .inl fun round hmem => ?_
    cases houtcome : round.outcome with
    | ok report => exact ⟨report, rfl⟩
    | error fault => exact absurd ⟨round, hmem, fault, houtcome⟩ hfailed

/-- **The last tick of a replay** is the one that decides its last round. -/
theorem last_outcome (limit step : Nat) (b : Broker σ α) :
    (b.outcomes (callsOf (b.rounds plan options limit step))).getLast? =
      (b.rounds plan options limit step).getLast?.map (·.outcome) := by
  rcases List.eq_nil_or_concat (b.rounds plan options limit step) with
    hnone | ⟨earlier, last, hsplit⟩
  · rw [hnone]
    rfl
  · rw [List.concat_eq_append] at hsplit
    obtain ⟨⟨hactive, -, hself⟩, -, hstart, -⟩ :=
      rounds_split (P := fun _ => True) (fun _ _ _ _ _ _ => trivial) trivial hsplit
    obtain ⟨before, hcalls, -, -, houtcome⟩ :=
      round_last plan options (step + earlier.length) hactive
    rw [← hself] at hcalls houtcome
    have hwhole : callsOf (earlier ++ [last]) = (callsOf earlier ++ before) ++ [.tick] := by
      unfold callsOf
      rw [List.flatMap_append, List.flatMap_singleton, hcalls, List.append_assoc]
    have htick : (b.after (callsOf earlier ++ before)).tick.1 = last.outcome := by
      rw [after_append, ← hstart, houtcome]
    rw [hsplit, hwhole, outcomes_append, outcomes_tick, htick, List.getLast?_concat]
    exact List.getLast?_concat

/-! ### What a round logs -/

theorem logging_unanswered {b : Broker σ α} (h : unanswered b.tick.1 = true) :
    b.logging .tick = [] := by
  obtain ⟨hactive, hfree, _, _, -, hbreak⟩ := breakdown_of_unanswered h
  obtain ⟨s, hdue⟩ := hbreak.due hactive hfree
  unfold logging
  rw [hdue]

/-- **A completed tick logs what it reports.** -/
theorem logging_completed {b : Broker σ α} {report : TickReport α} (h : b.tick.1 = .ok report) :
    b.logging .tick = report.executed := by
  unfold logging
  rw [tick_eq] at h
  rcases hd : b.due with ⟨fault | ⟨step, begun⟩, c⟩
  · rw [hd] at h
    cases h
  · rw [hd] at h
    obtain ⟨d, hfeed, -, -, hexecuted, -⟩ := applyStep_ok h
    obtain ⟨htaken, -⟩ := taken_stuck_all hfeed
    show executionsIn (taken takeItem c step.items) = _
    rw [hexecuted, htaken, Step.executionsIn_items]

variable (plan options)

/-- A round that is completed logs what its last tick reports. -/
theorem logging_round (step : Nat) {b : Broker σ α} (hactive : b.finished = false)
    {report : TickReport α} (h : (b.round plan options step).outcome = .ok report) :
    gather logging b (b.round plan options step).calls = report.executed := by
  obtain ⟨before, hcalls, hvain, -, houtcome⟩ := round_last plan options step hactive
  have hnone : gather logging b before = [] :=
    List.eq_nil_iff_forall_not_mem.mpr fun x hx =>
      InVain.gather (P := fun _ => False) (fun _ _ => rfl)
        (fun c hc x hx => by rw [logging_unanswered hc] at hx; cases hx) hvain x hx
  rw [h] at houtcome
  rw [hcalls, gather_snoc, hnone, List.nil_append, logging_completed houtcome.symm]

end Broker

theorem Round.finish_tradeLog (round : Round σ α) : round.finish.tradeLog =
    round.start.tradeLog ++ Broker.gather Broker.logging round.start round.calls :=
  Broker.gather_record (fun b call => (b.perform_executions call).1) round.calls round.start

end Brokerage
