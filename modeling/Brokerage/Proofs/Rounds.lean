/-
# A replay as a run

A replay goes in rounds, one for each step that it comes to: the orders planned for
the step are inserted, and then there is a tick, again and again while no answer
comes and retries are left. Every call of a round but the last tick was an
insertion or went unanswered (`Broker.outcomes_round`). The calls of the rounds, one
round after the other, are a run of the broker, and a replay is that run; what it
records and what it counts is told by the outcomes of its rounds
(`Broker.replay_rounds`).

Key definitions: `unanswered`, `Broker.attempts`, `Round`, `Broker.round`,
`Broker.rounds`, `Round.entries`, `Round.losses`, `callsOf`, `reportsOf`, `closing`.
Key theorems: `Broker.tickRetrying_attempts`, `Broker.outcomes_round`,
`Broker.rounds_split`, `Broker.advance_round`, `Broker.advance_rounds`,
`Broker.replay_rounds`, `Broker.reports_rounds`.
-/
import Mathlib.Algebra.GroupWithZero.Nat
import Brokerage.Proofs.Digest
import Brokerage.Proofs.Dispatch
import Brokerage.Replay

namespace Brokerage

variable {σ α : Type} [Amount α]

/-- No answer came. -/
def unanswered {β : Type} : Except (BrokerFault α) β → Bool
  | .error (.transport _ _) => true
  | _ => false

/-- What a replay does at a step: the calls that it makes, from the broker as it was
before them, and the outcome of the last tick. -/
structure Round (σ α : Type) [Amount α] where
  step : Nat
  start : Broker σ α
  calls : List (Call α)
  outcome : Except (BrokerFault α) (TickReport α)

/-- The calls of some rounds, one round after the other. -/
def callsOf (rounds : List (Round σ α)) : List (Call α) :=
  rounds.flatMap (·.calls)

/-- The reports of the rounds that were completed. -/
def reportsOf (rounds : List (Round σ α)) : List (TickReport α) :=
  rounds.filterMap (·.outcome.toOption)

theorem reportsOf_cons (round : Round σ α) (rounds : List (Round σ α)) :
    reportsOf (round :: rounds) = round.outcome.toOption.toList ++ reportsOf rounds := by
  unfold reportsOf
  rw [List.filterMap_cons]
  cases round.outcome <;> rfl

theorem reportsOf_snoc_failed (earlier : List (Round σ α)) {last : Round σ α}
    {fault : BrokerFault α} (h : last.outcome = .error fault) :
    reportsOf (earlier ++ [last]) = reportsOf earlier := by
  unfold reportsOf
  rw [List.filterMap_append, List.filterMap_cons_none (by rw [h]; rfl), List.filterMap_nil,
    List.append_nil]

/-- Every completed round has a report. -/
theorem length_reportsOf : ∀ {rounds : List (Round σ α)},
    (∀ round ∈ rounds, ∃ report, round.outcome = .ok report) →
      (reportsOf rounds).length = rounds.length
  | [], _ => rfl
  | round :: rounds, h => by
    obtain ⟨report, hreport⟩ := h round List.mem_cons_self
    rw [reportsOf_cons, hreport, List.length_append,
      length_reportsOf fun r hr => h r (List.mem_cons_of_mem round hr), List.length_cons,
      Nat.add_comm]
    rfl

/-- What is recorded once a run has ended. -/
def closing : Option (Except (BrokerFault α) (RunSummary α)) → List (AuditEntry α)
  | some (.ok summary) => [.runCompleted summary]
  | _ => []

/-- Counting a report adds what it tells. -/
theorem RunSummary.count_reports : ∀ (reports : List (TickReport α)) (s : RunSummary α),
    let total := reports.foldl RunSummary.count s
    total.ticks = s.ticks + reports.length ∧
    total.submitted = s.submitted + (reports.map (·.submitted)).sum ∧
    total.rejected = s.rejected + (reports.flatMap (·.rejected)).length ∧
    total.results = s.results + (reports.flatMap (·.executed)).length
  | [], _ => ⟨rfl, rfl, rfl, rfl⟩
  | report :: reports, s => by
    obtain ⟨hticks, hsubmitted, hrejected, hresults⟩ := count_reports reports (s.count report)
    rw [List.length_cons, List.map_cons, List.sum_cons, List.flatMap_cons, List.flatMap_cons,
      List.length_append, List.length_append]
    refine ⟨?_, ?_, ?_, ?_⟩
    · exact hticks.trans (Nat.add_right_comm _ _ _)
    · exact hsubmitted.trans (Nat.add_assoc _ _ _)
    · exact hrejected.trans (Nat.add_assoc _ _ _)
    · exact hresults.trans (Nat.add_assoc _ _ _)

section

variable [Service σ α]

/-- Before the end of the session all orders are taken. -/
theorem insertAll_eq : ∀ (orders : List (Order α)) {b : Broker σ α}, b.finished = false →
    insertAll b orders = (.ok (), b.after (orders.map .insert))
  | [], _, _ => rfl
  | order :: orders, b, hactive => by
    have hinsert := Broker.insert_active hactive order
    have ih := insertAll_eq orders
      (b := b.recast b.service (b.account.blotter.pending ++ [order])) hactive
    unfold insertAll
    rw [hinsert]
    show insertAll _ orders = (.ok (), (b.insert order).2.after (orders.map .insert))
    rw [ih, hinsert]

namespace Broker

/-- The calls of a tick that is tried again while it gets no answer and retries are
left. -/
def attempts : Nat → Broker σ α → List (Call α)
  | 0, _ => [.tick]
  | left + 1, b =>
    if unanswered b.tick.1 then
      let again := (handedBack b.tick.1).map Call.insert
      .tick :: (again ++ attempts left (b.tick.2.after again))
    else [.tick]

/-- A tick without an answer was fresh and broke down. -/
theorem breakdown_of_unanswered {b : Broker σ α} (h : unanswered b.tick.1 = true) :
    b.finished = false ∧ b.held = none ∧
      ∃ reason orders, b.tick.1 = .error (.transport reason orders) ∧
        b.Breakdown (.transport reason orders) := by
  have hactive : b.finished = false := by
    cases hf : b.finished with
    | false => rfl
    | true =>
      unfold tick at h
      rw [if_pos hf] at h
      cases h
  obtain ⟨reason, orders, htick⟩ :
      ∃ reason orders, b.tick.1 = .error (.transport reason orders) := by
    rcases hb : b.tick.1 with fault | report
    · rw [hb] at h
      cases fault with
      | transport reason orders => exact ⟨reason, orders, rfl⟩
      | _ => cases h
    · rw [hb] at h
      cases h
  obtain ⟨hfree, hbreak⟩ := (retryable_iff hactive _).mp ⟨htick, rfl⟩
  exact ⟨hactive, hfree, reason, orders, htick, hbreak⟩

theorem active_of_unanswered {b : Broker σ α} (h : unanswered b.tick.1 = true) :
    b.tick.2.finished = false := by
  obtain ⟨hactive, hfree, _, _, -, hbreak⟩ := breakdown_of_unanswered h
  exact (untouched_of_breakdown hactive hfree hbreak).active

/-- A fresh tick goes unanswered if the exchange with the service does. -/
theorem unanswered_fresh {b : Broker σ α} (hactive : b.finished = false)
    (hfree : b.held = none) : unanswered b.tick.1 = unanswered b.reply.1 := by
  rw [tick_eq, due_of_reply hactive hfree]
  rcases b.reply with ⟨fault | reply, s⟩
  · cases fault <;> rfl
  · simp only
    cases reply.check with
    | error defect => rfl
    | ok step =>
      show unanswered ((b.begun s).applyStep step b.sendReport).1 = false
      rcases ha : ((b.begun s).applyStep step b.sendReport).1 with fault | report
      · have hfault := applyStep_not_retryable ha
        cases fault with
        | transport reason orders => cases hfault
        | _ => rfl
      · rfl

/-- A tick that gets no answer leaves the broker as it was sent. -/
theorem tick_unanswered {b : Broker σ α} (h : unanswered b.tick.1 = true) :
    b.finished = false ∧ b.held = none ∧ unanswered b.reply.1 = true ∧ b.tick =
      (b.reply.1.map fun _ => blankReport, { b.sent with service := b.reply.2 }) := by
  obtain ⟨hactive, hfree, -⟩ := breakdown_of_unanswered h
  rw [unanswered_fresh hactive hfree] at h
  refine ⟨hactive, hfree, h, ?_⟩
  rw [tick_eq, due_of_reply hactive hfree]
  rcases hr : b.reply with ⟨fault | reply, s⟩
  · rfl
  · rw [hr] at h
    cases h

theorem tickRetrying_zero (limit : Nat) (b : Broker σ α) :
    tickRetrying limit 0 b = (b.tick.1, b.tick.2, []) := by
  unfold tickRetrying
  rcases b.tick with ⟨fault | report, c⟩
  · cases fault <;> rfl
  · rfl

theorem tickRetrying_answered (limit left : Nat) {b : Broker σ α}
    (h : unanswered b.tick.1 = false) : tickRetrying limit left b = (b.tick.1, b.tick.2, []) := by
  unfold tickRetrying
  rcases hb : b.tick with ⟨fault | report, c⟩
  · rw [hb] at h
    cases fault with
    | transport reason orders => cases h
    | _ => rfl
  · rfl

/-- What comes back is inserted anew, and the tick is tried again. -/
theorem tickRetrying_unanswered (limit left : Nat) {b : Broker σ α}
    (h : unanswered b.tick.1 = true) :
    let again := tickRetrying limit left (b.tick.2.after ((handedBack b.tick.1).map .insert))
    ∃ note, tickRetrying limit (left + 1) b = (again.1, again.2.1, note :: again.2.2) := by
  obtain ⟨-, -, reason, orders, htick, -⟩ := breakdown_of_unanswered h
  have hinsert := insertAll_eq orders (active_of_unanswered h)
  rcases hb : b.tick with ⟨outcome, c⟩
  rw [hb] at htick hinsert
  obtain rfl : outcome = .error (.transport reason orders) := htick
  refine ⟨.resubmitting reason orders.length (limit - left) limit, ?_⟩
  rw [tickRetrying, hb]
  simp only [hinsert]
  rfl

/-- **A tick that is tried again** makes its attempts. All but the last of them go
unanswered, and if that one does as well, then no retry is left. -/
theorem tickRetrying_attempts (limit : Nat) : ∀ (left : Nat) (b : Broker σ α),
    let retried := tickRetrying limit left b
    retried.2.1 = b.after (b.attempts left) ∧
    ∃ lost, b.outcomes (b.attempts left) = lost ++ [retried.1] ∧
      (∀ outcome ∈ lost, unanswered outcome = true) ∧
      (unanswered retried.1 = true → lost.length = left)
  | 0, b => by
    rw [tickRetrying_zero]
    exact ⟨rfl, [], rfl, fun _ h => (by cases h), fun _ => rfl⟩
  | left + 1, b => by
    unfold attempts
    cases h : unanswered b.tick.1 with
    | false =>
      rw [tickRetrying_answered limit (left + 1) h]
      exact ⟨rfl, [], rfl, fun _ h => (by cases h), fun hlost => by rw [h] at hlost; cases hlost⟩
    | true =>
      obtain ⟨note, hretried⟩ := tickRetrying_unanswered limit left h
      obtain ⟨hafter, lost, houtcomes, hlost, hlength⟩ := tickRetrying_attempts limit left
        (b.tick.2.after ((handedBack b.tick.1).map .insert))
      obtain ⟨-, hnone⟩ := after_inserts (handedBack b.tick.1) (active_of_unanswered h)
      rw [hretried]
      simp only [if_true]
      refine ⟨?_, b.tick.1 :: lost, ?_, fun outcome hmem => ?_, fun hlast => ?_⟩
      · rw [hafter]
        show _ = b.tick.2.after _
        rw [after_append]
      · rw [outcomes_tick, outcomes_append, hnone, houtcomes]
        rfl
      · rcases List.mem_cons.mp hmem with rfl | hmem
        · exact h
        · exact hlost outcome hmem
      · exact congrArg (· + 1) (hlength hlast)

/-! ### Rounds -/

/-- The round of a replay at a step. -/
def round (plan : Plan α) (options : RunOptions) (step : Nat) (b : Broker σ α) : Round σ α :=
  let orders := (plan.ordersFor step).map Call.insert
  let retries := options.maxTickRetries
  { step := step
    start := b
    calls := orders ++ (b.after orders).attempts retries
    outcome := (tickRetrying retries retries (b.after orders)).1 }

/-- The rounds of a replay, from a step on. -/
def rounds (plan : Plan α) (options : RunOptions) : Nat → Nat → Broker σ α → List (Round σ α)
  | 0, _, _ => []
  | limit + 1, step, b =>
    if b.finished || options.maxTicks.any (· ≤ step) then []
    else
      let round := b.round plan options step
      round :: match round.outcome with
        | .error _ => []
        | .ok _ => rounds plan options limit (step + 1) (b.after round.calls)

end Broker

/-- The broker after a round. -/
def Round.finish (round : Round σ α) : Broker σ α :=
  round.start.after round.calls

/-- What is recorded of a round. -/
def Round.entries (round : Round σ α) : List (AuditEntry α) :=
  match round.outcome with
  | .ok report => tickEntries round.step report
  | .error fault =>
    abortEntries round.step (round.finish.tradeLog.drop round.start.tradeLog.length) fault

/-- How many ticks of a round went unanswered. -/
def Round.losses (round : Round σ α) : Nat :=
  (round.start.outcomes round.calls).countP unanswered

namespace Broker

variable (plan : Plan α) (options : RunOptions)

theorem finish_round (step : Nat) (b : Broker σ α) :
    (b.round plan options step).finish =
      (tickRetrying options.maxTickRetries options.maxTickRetries
        (b.after ((plan.ordersFor step).map .insert))).2.1 := by
  obtain ⟨hafter, -⟩ := tickRetrying_attempts options.maxTickRetries options.maxTickRetries
    (b.after ((plan.ordersFor step).map .insert))
  rw [hafter, ← after_append]
  rfl

/-- **The ticks of a round:** those that went unanswered, and the one that decides. -/
theorem outcomes_round (step : Nat) {b : Broker σ α} (hactive : b.finished = false) :
    let round := b.round plan options step
    ∃ lost, b.outcomes round.calls = lost ++ [round.outcome] ∧
      (∀ outcome ∈ lost, unanswered outcome = true) ∧
      (unanswered round.outcome = true → lost.length = options.maxTickRetries) := by
  obtain ⟨-, hnone⟩ := after_inserts (plan.ordersFor step) hactive
  obtain ⟨-, lost, houtcomes, hlost, hlength⟩ :=
    tickRetrying_attempts options.maxTickRetries options.maxTickRetries
      (b.after ((plan.ordersFor step).map .insert))
  refine ⟨lost, ?_, hlost, hlength⟩
  unfold round
  rw [outcomes_append, hnone, houtcomes]
  rfl

/-- A round that ends without an answer has lost one tick more than it may try
again. -/
theorem losses_of_unanswered (step : Nat) {b : Broker σ α} (hactive : b.finished = false)
    (h : unanswered (b.round plan options step).outcome = true) :
    (b.round plan options step).losses = options.maxTickRetries + 1 := by
  obtain ⟨lost, houtcomes, hlost, hlength⟩ := outcomes_round plan options step hactive
  have hall : lost.countP unanswered = lost.length := List.countP_eq_length.mpr hlost
  unfold Round.losses
  show (b.outcomes _).countP unanswered = _
  rw [houtcomes, List.countP_append, hall, hlength h, List.countP_singleton, if_pos h]

variable {plan options}

/-- The rounds of a replay that is not over. -/
theorem rounds_active (limit : Nat) {step : Nat} {b : Broker σ α}
    (h : (b.finished || options.maxTicks.any (· ≤ step)) = false) :
    let round := b.round plan options step
    b.rounds plan options (limit + 1) step =
      round :: match round.outcome with
        | .error _ => []
        | .ok _ => round.finish.rounds plan options limit (step + 1) := by
  rw [rounds, h]
  rfl

/-- **The rounds of a replay** come one after the other: those in front of another one were
completed, it starts where they have come to, and behind one that was not completed there
is none. What completed rounds preserve holds whenever a round starts. -/
theorem rounds_split {P : Broker σ α → Prop}
    (hkept : ∀ (step : Nat) (b : Broker σ α), b.finished = false → P b →
      ∀ report, (b.round plan options step).outcome = .ok report →
        P (b.round plan options step).finish) :
    ∀ {limit step : Nat} {b : Broker σ α} {before : List (Round σ α)} {round : Round σ α}
      {after : List (Round σ α)}, P b →
      b.rounds plan options limit step = before ++ round :: after →
        (round.start.finished = false ∧ P round.start ∧
          round = round.start.round plan options (step + before.length)) ∧
        (∀ earlier ∈ before, ∃ report, earlier.outcome = .ok report) ∧
        round.start = b.after (callsOf before) ∧
        (∀ fault, round.outcome = .error fault → after = [])
  | 0, _, _, before, _, _, _, h => by cases before <;> cases h
  | limit + 1, step, b, before, round, after, hb, h => by
    cases hgo : b.finished || options.maxTicks.any (· ≤ step) with
    | true =>
      rw [rounds, hgo] at h
      cases before <;> cases h
    | false =>
      obtain ⟨hactive, -⟩ := Bool.or_eq_false_iff.mp hgo
      rw [rounds_active limit hgo] at h
      rcases List.cons_eq_append_iff.mp h with ⟨rfl, hround⟩ | ⟨before, rfl, hlater⟩
      · obtain ⟨rfl, hafter⟩ := List.cons.inj hround
        refine ⟨⟨hactive, hb, rfl⟩, fun _ hmem => (by cases hmem), rfl, fun fault hfault => ?_⟩
        rw [hfault] at hafter
        exact hafter
      · cases ho : (b.round plan options step).outcome with
        | error fault =>
          rw [ho] at hlater
          cases before <;> cases hlater
        | ok report =>
          rw [ho] at hlater
          obtain ⟨⟨hopen, hround, hself⟩, hdone, hstart, hlast⟩ :=
            rounds_split hkept (hkept step b hactive hb report ho) hlater
          refine ⟨⟨hopen, hround, ?_⟩, List.forall_mem_cons.mpr ⟨⟨report, ho⟩, hdone⟩, ?_, hlast⟩
          · rw [List.length_cons, Nat.add_comm before.length, ← Nat.add_assoc]
            exact hself
          · rw [hstart, Round.finish, ← after_append]
            rfl

variable (plan options)

/-- The reports of the rounds are those of the run. -/
theorem reports_rounds : ∀ (limit step : Nat) (b : Broker σ α),
    let rounds := b.rounds plan options limit step
    (b.outcomes (callsOf rounds)).filterMap Except.toOption = reportsOf rounds
  | 0, _, _ => rfl
  | limit + 1, step, b => by
    cases hgo : b.finished || options.maxTicks.any (· ≤ step) with
    | true =>
      rw [rounds, hgo]
      rfl
    | false =>
      obtain ⟨hactive, -⟩ := Bool.or_eq_false_iff.mp hgo
      obtain ⟨lost, houtcomes, hlost, -⟩ := outcomes_round plan options step hactive
      have hnone : lost.filterMap Except.toOption = [] := by
        refine List.filterMap_eq_nil_iff.mpr fun outcome hmem => ?_
        have h := hlost outcome hmem
        cases outcome with
        | error fault => rfl
        | ok report => cases h
      have hfirst : (b.outcomes (b.round plan options step).calls).filterMap Except.toOption =
          (b.round plan options step).outcome.toOption.toList := by
        rw [houtcomes, List.filterMap_append, hnone]
        cases (b.round plan options step).outcome <;> rfl
      rw [rounds_active limit hgo]
      cases ho : (b.round plan options step).outcome with
      | error fault =>
        rw [ho] at hfirst
        show (b.outcomes ((b.round plan options step).calls ++ [])).filterMap _ = _
        rw [List.append_nil, hfirst, reportsOf_cons, ho]
        rfl
      | ok report =>
        have ih := reports_rounds limit (step + 1) (b.round plan options step).finish
        rw [ho] at hfirst
        show (b.outcomes ((b.round plan options step).calls ++ callsOf _)).filterMap _ = _
        rw [outcomes_append, List.filterMap_append, hfirst, reportsOf_cons, ho]
        exact congrArg (_ ++ ·) ih

/-! ### The replay -/

/-- A run that has come to its end, or to the ticks that it may take, is completed. -/
theorem advance_over (limit : Nat) (summary : RunSummary α) (run : Run σ α)
    (h : (run.broker.finished || options.maxTicks.any (· ≤ summary.ticks)) = true) :
    ∃ notes, run.advance plan options (limit + 1) summary =
      Run.complete { run with notes := notes } summary := by
  unfold Run.advance
  cases hf : run.broker.finished with
  | true => exact ⟨run.notes, rfl⟩
  | false =>
    rw [hf, Bool.false_or] at h
    refine ⟨run.notes ++ [.stopping summary.ticks], ?_⟩
    simp only [Bool.false_eq_true, if_false, h, if_true]

/-- Any other run makes a round, and goes on from there if the round was completed. -/
theorem advance_round (limit : Nat) (summary : RunSummary α) (run : Run σ α)
    (h : (run.broker.finished || options.maxTicks.any (· ≤ summary.ticks)) = false) :
    let round := run.broker.round plan options summary.ticks
    ∃ notes, run.advance plan options (limit + 1) summary =
      let next : Run σ α := ⟨round.finish, run.entries ++ round.entries, notes⟩
      match round.outcome with
      | .error fault => { next with outcome := some (.error fault) }
      | .ok report => next.advance plan options limit (summary.count report) := by
  obtain ⟨hactive, hstop⟩ := Bool.or_eq_false_iff.mp h
  obtain ⟨hopened, -⟩ := after_inserts (plan.ordersFor summary.ticks) hactive
  have hlog : (run.broker.after ((plan.ordersFor summary.ticks).map .insert)).tradeLog =
      run.broker.tradeLog := by rw [hopened]; rfl
  have hfinish := run.broker.finish_round plan options summary.ticks
  have houtcome : (run.broker.round plan options summary.ticks).outcome =
      (tickRetrying options.maxTickRetries options.maxTickRetries
        (run.broker.after ((plan.ordersFor summary.ticks).map .insert))).1 := rfl
  rw [Run.advance]
  simp only [hactive, hstop, Bool.false_eq_true, if_false,
    insertAll_eq (plan.ordersFor summary.ticks) hactive, hlog]
  rcases ht : tickRetrying options.maxTickRetries options.maxTickRetries
    (run.broker.after ((plan.ordersFor summary.ticks).map .insert)) with ⟨outcome, c, notes⟩
  rw [ht] at hfinish houtcome
  obtain rfl : (run.broker.round plan options summary.ticks).finish = c := hfinish
  refine ⟨run.notes ++ notes, ?_⟩
  simp only [Round.entries, houtcome]
  cases outcome <;> rfl

/-- **The rounds of a replay** that has come to some step. -/
theorem advance_rounds : ∀ (limit : Nat) (summary : RunSummary α) (run : Run σ α),
    let rounds := run.broker.rounds plan options limit summary.ticks
    let done := run.advance plan options limit summary
    done.broker = run.broker.after (callsOf rounds) ∧
    done.entries = run.entries ++ rounds.flatMap Round.entries ++ closing done.outcome ∧
    ∀ total, done.outcome = some (.ok total) →
      total = { (reportsOf rounds).foldl RunSummary.count summary with
        finalCash := done.broker.account.ledger.cash
        finished := done.broker.finished }
  | 0, summary, run => by
    refine ⟨rfl, ?_, fun total h => by cases h⟩
    show run.entries = run.entries ++ [] ++ []
    rw [List.append_nil, List.append_nil]
  | limit + 1, summary, run => by
    cases hgo : run.broker.finished || options.maxTicks.any (· ≤ summary.ticks) with
    | true =>
      obtain ⟨notes, hdone⟩ := advance_over plan options limit summary run hgo
      rw [hdone, rounds, hgo]
      refine ⟨rfl, ?_, fun total h => (Except.ok.inj (Option.some.inj h)).symm⟩
      show _ = run.entries ++ [] ++ _
      rw [List.append_nil]
      rfl
    | false =>
      obtain ⟨notes, hdone⟩ := advance_round plan options limit summary run hgo
      rw [hdone, rounds_active limit hgo]
      cases ho : (run.broker.round plan options summary.ticks).outcome with
      | error fault =>
        refine ⟨?_, ?_, fun total h => by cases h⟩
        · show _ = run.broker.after (_ ++ [])
          rw [List.append_nil]
          rfl
        · show run.entries ++ _ = run.entries ++ (_ ++ []) ++ []
          rw [List.append_nil, List.append_nil]
      | ok report =>
        obtain ⟨hbroker, hentries, htotal⟩ := advance_rounds limit (summary.count report)
          ⟨(run.broker.round plan options summary.ticks).finish,
            run.entries ++ (run.broker.round plan options summary.ticks).entries, notes⟩
        refine ⟨?_, ?_, fun total h => ?_⟩
        · rw [hbroker]
          show _ = run.broker.after (_ ++ callsOf _)
          rw [after_append]
          rfl
        · rw [hentries]
          show _ = run.entries ++ (_ ++ _) ++ _
          rw [← List.append_assoc run.entries]
          rfl
        · rw [htotal total h, reportsOf_cons, ho]
          rfl

/-- **A replay is the run of its rounds.** It ends where their calls lead, records what
is recorded of each of them, and counts the reports of those that were completed. -/
theorem replay_rounds (limit : Nat) (b : Broker σ α) :
    let rounds := b.rounds plan options limit 0
    let done := replay plan options limit b
    done.broker = b.after (callsOf rounds) ∧
    done.entries = .runStarted options.planFile b.account.ledger.cash ::
      rounds.flatMap Round.entries ++ closing done.outcome ∧
    ∀ total, done.outcome = some (.ok total) →
      total.ticks = (reportsOf rounds).length ∧
      total.submitted = ((reportsOf rounds).map (·.submitted)).sum ∧
      total.rejected = ((reportsOf rounds).flatMap (·.rejected)).length ∧
      total.results = ((reportsOf rounds).flatMap (·.executed)).length := by
  obtain ⟨hbroker, hentries, htotal⟩ := advance_rounds plan options limit
    ⟨b.session, 0, 0, 0, 0, b.account.ledger.cash, none, false⟩
    ⟨b, [.runStarted options.planFile b.account.ledger.cash], []⟩
  refine ⟨hbroker, hentries, fun total h => ?_⟩
  obtain ⟨hticks, hsubmitted, hrejected, hresults⟩ := RunSummary.count_reports
    (reportsOf (b.rounds plan options limit 0))
    ⟨b.session, 0, 0, 0, 0, b.account.ledger.cash, none, false⟩
  rw [htotal total h]
  refine ⟨?_, ?_, ?_, ?_⟩
  · exact hticks.trans (Nat.zero_add _)
  · exact hsubmitted.trans (Nat.zero_add _)
  · exact hrejected.trans (Nat.zero_add _)
  · exact hresults.trans (Nat.zero_add _)

end Broker

end

end Brokerage
