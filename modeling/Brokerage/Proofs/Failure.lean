/-
# A replay stops at the tick that it gives up

A tick that goes unanswered is tried again while retries are left; a tick that fails in any
other way, or with no retry left, is given up (`Round.GivesUp`). A round makes no call
after such a tick (`Round.GivesUp.last`), and a replay makes no round after such a round
(`Broker.rounds_split`). So a replay fails exactly if a tick is given up, with the fault of
that tick, and it is left as the tick left it. Until then the session is open, for a lost
tick does not end it (`Broker.InVain.active`), so that no insertion is refused and no tick
comes too late. What the program exits with tells whether the tick refused a fill
(`Broker.refusesFill_iff`).

Key definitions: `Round.GivesUp`, `Execution.Overdraws`, `Broker.RefusesFill`.
Key theorems: `Round.GivesUp.last`, `Broker.replay_given_up`, `Broker.refusesFill_iff`,
 `Broker.replay_stops_at_fault`.
-/
import Brokerage.Cli
import Brokerage.Proofs.Accounting
import Brokerage.Proofs.Atomic
import Brokerage.Proofs.ClientEnding
import Brokerage.Proofs.Limits
import Brokerage.Proofs.TrailShape

namespace Brokerage

variable {σ α : Type} [Amount α]

/-! ### Fills that are refused -/

/-- The fill would take the cash below zero. -/
def Execution.Overdraws (l : Ledger α) (e : Execution α) : Prop :=
  match e.kind with
  | .buy => l.cash - e.value < 0
  | .sell => l.cash + e.value < 0
  | .cancel | .modify => False

namespace Account

/-- An account is short of cash for the fills that overdraw it, and for nothing else. -/
theorem reconcile_insolvent_iff (a : Account α) (e : Execution α) :
    (∃ shortfall, a.reconcile e = .error (.insolvent shortfall)) ↔ e.Overdraws a.ledger := by
  unfold reconcile Execution.Overdraws
  cases hk : e.kind with
  | buy =>
    simp only [Ledger.apply, hk]
    rw [← Ledger.settle_error_iff a.ledger e _ e.quantity]
    cases a.ledger.settle e (a.ledger.cash - e.value) e.quantity <;> simp
  | sell =>
    simp only [Ledger.apply, hk]
    rw [← Ledger.settle_error_iff a.ledger e _ (-e.quantity)]
    cases a.ledger.settle e (a.ledger.cash + e.value) (-e.quantity) <;> simp
  | cancel =>
    simp only [iff_false]
    rintro ⟨shortfall, h⟩
    cases hb : a.blotter.cancel e <;> rw [hb] at h <;> cases h
  | modify =>
    simp only [iff_false]
    rintro ⟨shortfall, h⟩
    cases hb : a.blotter.modify e <;> rw [hb] at h <;> cases h

end Account

namespace Broker

theorem takeExecution_insolvent_iff (b : Broker σ α) (e : Execution α) :
    (∃ shortfall, b.takeExecution e = .error (.insolvent shortfall)) ↔
      e.Overdraws b.account.ledger := by
  rw [← Account.reconcile_insolvent_iff]
  unfold takeExecution
  cases b.account.reconcile e <;> simp

theorem takePlacement_not_insolvent {b : Broker σ α} {p : OrderId × Order α}
    {shortfall : Insolvency α} : b.takePlacement p ≠ .error (.insolvent shortfall) := by
  unfold takePlacement Account.place
  cases b.account.blotter.place p.1 p.2 <;> simp

/-- **Why applying a step fails:** an item did not go through, or a holding has no
quote. -/
theorem applyStep_fault {b : Broker σ α} {step : Step α} {report : TickReport α}
    {fault : BrokerFault α} (h : (b.applyStep step report).1 = .error fault) :
    (∃ cause, fault = .ofDiscrepancy cause) ∨ ∃ symbol, fault = .staleQuote symbol := by
  rcases b.applyStep_cases step report with ⟨_, _, _, cause, _, -, -, -, ha⟩ | ⟨c, -, ha⟩
  · rw [ha] at h
    exact .inl ⟨cause, (Except.error.inj h).symm⟩
  · rw [ha] at h
    rcases c.conclude_outcome step _ with ⟨done, hc⟩ | ⟨symbol, hc⟩
    · rw [hc] at h
      cases h
    · rw [hc] at h
      exact .inr ⟨symbol, (Except.error.inj h).symm⟩

/-- A step is short of cash at the first execution that does not go through, if that is a
fill which overdraws it. -/
theorem applyStep_insolvent_iff (b : Broker σ α) (step : Step α) (report : TickReport α) :
    (∃ shortfall, (b.applyStep step report).1 = .error (.insolvent shortfall)) ↔
      ∃ applied e later reached, step.executed = applied ++ e :: later ∧
        feed takeExecution b applied = (reached, none) ∧
        e.Overdraws reached.account.ledger := by
  constructor
  · rintro ⟨shortfall, h⟩
    unfold applyStep at h
    rcases he : feed takeExecution b step.executed with ⟨c, _ | ⟨cause, later⟩⟩
    · rw [he] at h
      simp only at h
      rcases hp : feed takePlacement c step.inserted with ⟨d, _ | ⟨cause, rest⟩⟩
      · rw [hp] at h
        rcases d.conclude_outcome step _ with ⟨done, hc⟩ | ⟨symbol, hc⟩
        · rw [hc] at h
          cases h
        · rw [hc] at h
          cases h
      · rw [hp] at h
        obtain ⟨_, p, -, -, hstuck⟩ := feed_stops hp
        cases cause with
        | insolvent short => exact absurd hstuck takePlacement_not_insolvent
        | desync cause => cases h
    · rw [he] at h
      obtain ⟨applied, e, hstep, hfeed, hstuck⟩ := feed_stops he
      cases cause with
      | insolvent short =>
        exact ⟨applied, e, later, c, hstep, hfeed,
          (c.takeExecution_insolvent_iff e).mp ⟨short, hstuck⟩⟩
      | desync cause => cases h
  · rintro ⟨applied, e, later, reached, hstep, hfeed, hfill⟩
    obtain ⟨shortfall, htake⟩ := (reached.takeExecution_insolvent_iff e).mpr hfill
    refine ⟨shortfall, ?_⟩
    unfold applyStep
    rw [hstep, feed_append hfeed, feed_cons_error htake]
    rfl

variable [Service σ α]

/-- The next tick applies a step, the executions in front of a fill go through, and the
fill would take the cash that they leave below zero. -/
def RefusesFill (b : Broker σ α) : Prop :=
  ∃ step report begun, b.due = (.ok (step, report), begun) ∧
    ∃ applied e later reached, step.executed = applied ++ e :: later ∧
      feed takeExecution begun applied = (reached, none) ∧ e.Overdraws reached.account.ledger

theorem RefusesFill.active {b : Broker σ α} (h : b.RefusesFill) : b.finished = false := by
  obtain ⟨step, report, begun, hdue, -⟩ := h
  exact (due_ok hdue).1

/-- **A tick is short of cash** if it refuses a fill, and in no other case. -/
theorem refusesFill_iff {b : Broker σ α} (hactive : b.finished = false) :
    b.RefusesFill ↔ ∃ shortfall, b.tick.1 = .error (.insolvent shortfall) := by
  rw [tick_eq]
  rcases hdue : b.due with ⟨fault | ⟨step, report⟩, begun⟩
  · obtain ⟨-, hbreak⟩ := breakdown_of_due hactive hdue
    constructor
    · rintro ⟨step, report, begun', hstep, -⟩
      rw [hdue] at hstep
      cases hstep
    · rintro ⟨shortfall, h⟩
      cases h
      cases hbreak.retryable
  · refine Iff.trans ?_ (begun.applyStep_insolvent_iff step report).symm
    constructor
    · rintro ⟨step', report', begun', hstep, hrefused⟩
      rw [hdue] at hstep
      cases hstep
      exact hrefused
    · exact fun hrefused => ⟨step, report, begun, hdue, hrefused⟩

/-- An open session does not answer a tick by saying that it is finished. -/
theorem tick_not_late {b : Broker σ α} (hactive : b.finished = false) (call : LateCall) :
    b.tick.1 ≠ .error (.finished call) := by
  intro h
  rw [tick_eq] at h
  rcases hdue : b.due with ⟨fault | ⟨step, report⟩, c⟩
  · obtain ⟨-, hbreak⟩ := breakdown_of_due hactive hdue
    rw [hdue] at h
    cases h
    cases hbreak.retryable
  · rw [hdue] at h
    rcases applyStep_fault h with ⟨cause, hfault⟩ | ⟨symbol, hfault⟩
    · cases cause <;> cases hfault
    · cases hfault

/-! ### Ticks that are given up -/

/-- Lost ticks and insertions leave the session open. -/
theorem InVain.active : ∀ {calls : List (Call α)} {b : Broker σ α}, b.InVain calls →
    b.finished = false → (b.after calls).finished = false
  | [], _, _, hactive => hactive
  | .insert order :: calls, b, h, hactive => by
    have hopen : (b.insert order).2.finished = false := by
      rw [insert_active hactive]
      exact hactive
    have hrest : (b.insert order).2.InVain calls := h
    exact hrest.active hopen
  | .tick :: calls, b, h, _ => by
    obtain ⟨hlost, hrest⟩ := h.tick
    exact InVain.active (b := b.tick.2) hrest (active_of_unanswered hlost)

end Broker

namespace Round

variable [Service σ α]

/-- The tick behind `front` fails and is not tried again: if no answer came, then as many
ticks of the round were lost before it as may be tried again. -/
structure GivesUp (retries : ℕ) (round : Round σ α) (front back : List (Call α))
    (fault : BrokerFault α) : Prop where
  calls : round.calls = front ++ .tick :: back
  failed : (round.start.after front).tick.1 = .error fault
  spent : ∀ reason unsent, fault = .transport reason unsent →
    retries ≤ (round.start.outcomes front).countP unanswered

variable {plan : Plan α} {options : RunOptions} {step : ℕ} {b : Broker σ α}
  {front back : List (Call α)} {fault : BrokerFault α}

/-- **A tick that is given up** is the last call of its round. Before it there are only
ticks that were lost, no more than may be tried again. -/
theorem GivesUp.last (hactive : b.finished = false)
    (h : (b.round plan options step).GivesUp options.maxTickRetries front back fault) :
    back = [] ∧ b.InVain front ∧ (b.outcomes front).length ≤ options.maxTickRetries ∧
      (b.round plan options step).outcome = .error fault := by
  obtain ⟨before, hbefore, hvain, hle, houtcome⟩ := Broker.round_last plan options step hactive
  have hstart : (b.round plan options step).start = b := rfl
  obtain ⟨hcalls, hfault, hspent⟩ := h
  rw [hstart] at hfault hspent
  have hsame : before ++ [.tick] = front ++ .tick :: back := hbefore.symm.trans hcalls
  rcases List.eq_nil_or_concat back with rfl | ⟨rest, call, rfl⟩
  · obtain ⟨rfl, -⟩ := List.append_inj' hsame rfl
    exact ⟨rfl, hvain, hle, houtcome.trans hfault⟩
  · -- With a call behind it the tick would be one of those that were lost.
    rw [List.concat_eq_append, ← List.cons_append, ← List.append_assoc] at hsame
    obtain ⟨rfl, -⟩ := List.append_inj' hsame rfl
    have houtcomes : b.outcomes (front ++ .tick :: rest) =
        b.outcomes front ++ .error fault :: (b.after front).tick.2.outcomes rest := by
      rw [Broker.outcomes_append, Broker.outcomes_tick, hfault]
    have hlost : unanswered (.error fault : Except (BrokerFault α) (TickReport α)) = true := by
      refine hvain _ ?_
      rw [houtcomes]
      exact List.mem_append_right _ List.mem_cons_self
    obtain ⟨reason, unsent, rfl⟩ : ∃ reason unsent, fault = .transport reason unsent := by
      cases fault with
      | transport reason unsent => exact ⟨reason, unsent, rfl⟩
      | _ => cases hlost
    have hretries := hspent reason unsent rfl
    have hcount : (b.outcomes front).countP unanswered ≤ (b.outcomes front).length :=
      List.countP_le_length
    rw [houtcomes, List.length_append, List.length_cons] at hle
    omega

/-- A round without a report has given its last tick up. -/
theorem givesUp_of_outcome (hactive : b.finished = false)
    (h : (b.round plan options step).outcome = .error fault) :
    ∃ front, (b.round plan options step).GivesUp options.maxTickRetries front [] fault := by
  obtain ⟨front, hcalls, hvain, -, houtcome⟩ := Broker.round_last plan options step hactive
  obtain ⟨lost, houtcomes, -, hlength⟩ := Broker.outcomes_round plan options step hactive
  refine ⟨front, hcalls, houtcome.symm.trans h, fun reason unsent hfault => ?_⟩
  rw [hcalls, Broker.outcomes_append] at houtcomes
  obtain ⟨hfront, -⟩ := List.append_inj' houtcomes rfl
  have hall : lost.countP unanswered = lost.length :=
    List.countP_eq_length.mpr fun outcome hmem => hvain outcome (hfront ▸ hmem)
  show options.maxTickRetries ≤ (b.outcomes front).countP unanswered
  rw [hfront, hall, hlength (by rw [h, hfault]; rfl)]

end Round

/-! ### The end of a replay -/

theorem RunFault.exitCode_broker (fault : BrokerFault Float) :
    ((RunFault.broker fault).exitCode = 2 ↔ ∃ shortfall, fault = .insolvent shortfall) ∧
      ((RunFault.broker fault).exitCode = 2 ∨ (RunFault.broker fault).exitCode = 1) := by
  cases fault <;> simp [RunFault.exitCode, RunFault.isInsolvency]

namespace Broker

variable [Service σ α] {plan : Plan α} {options : RunOptions}

/-- A round of the replay without a report has given its last tick up. -/
theorem exists_givesUp {limit : ℕ} {b : Broker σ α} {round : Round σ α} {fault : BrokerFault α}
    (hmem : round ∈ b.rounds plan options limit 0) (h : round.outcome = .error fault) :
    ∃ front, round.GivesUp options.maxTickRetries front [] fault := by
  obtain ⟨step, start, hactive, rfl⟩ := round_of_mem hmem
  exact Round.givesUp_of_outcome hactive h

/-- **A tick that is given up ends the replay.** It is the last call, and the broker that
the replay leaves is the one that the tick left. -/
theorem replay_given_up {limit : ℕ} {b : Broker σ α} {round : Round σ α}
    {front back : List (Call α)} {fault : BrokerFault α}
    (hmem : round ∈ b.rounds plan options limit 0)
    (h : round.GivesUp options.maxTickRetries front back fault) :
    let rounds := b.rounds plan options limit 0
    let done := replay plan options limit b
    done.outcome = some (.error fault) ∧
    ∃ earlier, rounds = earlier ++ [round] ∧
      (∀ completed ∈ earlier, ∃ report, completed.outcome = .ok report) ∧
      callsOf rounds = callsOf earlier ++ front ++ [.tick] ∧
      round.start.InVain front ∧
      (round.start.outcomes front).length ≤ options.maxTickRetries ∧
      (b.after (callsOf earlier ++ front)).tick = (.error fault, done.broker) := by
  intro rounds done
  obtain ⟨earlier, after, hsplit⟩ := List.append_of_mem hmem
  obtain ⟨⟨hactive, -, hself⟩, hcompleted, hstart, hend⟩ :=
    rounds_split (P := fun _ => True) (fun _ _ _ _ _ _ => trivial) trivial hsplit
  have hcalls := h.calls
  have hfailed := h.failed
  rw [hself] at h
  obtain ⟨rfl, hvain, hle, houtcome⟩ := h.last hactive
  rw [← hself] at houtcome
  obtain rfl := hend fault houtcome
  have hwhole : callsOf rounds = callsOf earlier ++ front ++ [.tick] := by
    show callsOf (b.rounds plan options limit 0) = _
    rw [hsplit, List.append_assoc, ← hcalls]
    unfold callsOf
    rw [List.flatMap_append, List.flatMap_singleton]
  obtain ⟨hbroker, -⟩ := replay_rounds plan options limit b
  refine ⟨(replay_error_iff limit b fault).mpr ⟨round, hmem, houtcome⟩, earlier, hsplit, hcompleted,
    hwhole, hvain, hle, ?_⟩
  rw [hstart, ← after_append] at hfailed
  refine Prod.ext hfailed ?_
  show _ = (replay plan options limit b).broker
  rw [hbroker]
  show _ = b.after (callsOf rounds)
  rw [hwhole, after_append b (callsOf earlier ++ front)]
  rfl

/-- A replay that is short of cash has made a tick that refuses a fill, and every such tick
ends it. -/
theorem replay_insolvent_iff {limit : ℕ} {b : Broker σ α} {fault : BrokerFault α}
    (hdone : (replay plan options limit b).outcome = some (.error fault)) :
    (∃ shortfall, fault = .insolvent shortfall) ↔
      ∃ front back, callsOf (b.rounds plan options limit 0) = front ++ .tick :: back ∧
        (b.after front).RefusesFill := by
  obtain ⟨round, hmem, houtcome⟩ := (replay_error_iff limit b fault).mp hdone
  constructor
  · rintro ⟨shortfall, rfl⟩
    obtain ⟨front, hgives⟩ := exists_givesUp hmem houtcome
    obtain ⟨-, earlier, -, -, hcalls, -, -, htick⟩ := replay_given_up hmem hgives
    have hopen : (b.after (callsOf earlier ++ front)).finished = false := by
      cases hf : (b.after (callsOf earlier ++ front)).finished with
      | false => rfl
      | true =>
        rw [tick_finished hf] at htick
        cases htick
    exact ⟨_, [], hcalls, (refusesFill_iff hopen).mpr ⟨shortfall, congrArg Prod.fst htick⟩⟩
  · rintro ⟨front, back, hcalls, hrefuses⟩
    obtain ⟨shortfall, htick⟩ := (refusesFill_iff hrefuses.active).mp hrefuses
    have htold : (b.after front).tick.1 ∈ b.outcomes (callsOf (b.rounds plan options limit 0)) := by
      rw [hcalls, outcomes_append, outcomes_tick]
      exact List.mem_append_right _ List.mem_cons_self
    rw [outcomes_rounds, List.mem_flatMap] at htold
    obtain ⟨other, hother, htold⟩ := htold
    obtain ⟨step, start, hactive, rfl⟩ := round_of_mem hother
    obtain ⟨lost, houtcomes, hlost, -⟩ := outcomes_round plan options step hactive
    have hlast : (start.round plan options step).outcome = .error (.insolvent shortfall) := by
      rw [show (start.round plan options step).start = start from rfl, houtcomes, htick] at htold
      rcases List.mem_append.mp htold with hin | hin
      · cases hlost _ hin
      · exact (List.mem_singleton.mp hin).symm
    have hsame := (replay_error_iff limit b _).mpr ⟨_, hother, hlast⟩
    rw [hdone] at hsame
    cases hsame
    exact ⟨shortfall, rfl⟩

/-- **A replay stops at the first tick that it gives up** and reports its fault. Whatever
the plan, the service and the options, a replay fails exactly if a tick of it is given up:
it fails and is not tried again, be it that another tick can make no difference or that as
many ticks as may be tried again have been lost at its step. The fault is that of the tick,
and the tick is the last call: only completed rounds and lost ticks come before it, and the
broker is left as the tick left it. The trail then has no line that sums the run up. The
fault is never that the session is finished, and the program exits with 2 if a tick of the
replay refused a fill that would take the cash below zero, and with 1 otherwise. That is how a
program run ends that replays the plan over HTTP: it exits with zero if and only if it has
opened a session and the replay is completed, and with the code of the fault if it fails. -/
theorem replay_stops_at_fault {τ : Type} [Service τ Float] (plan : Plan Float)
    (options : RunOptions) (limit : ℕ) (b : Broker τ Float) (log : AuditLog) (stamp : String) :
    let rounds := b.rounds plan options limit 0
    let done := replay plan options limit b
    let lines := { log with session := some b.session : AuditLog }.lines stamp done.entries
    (∀ fault, done.outcome = some (.error fault) ↔
      ∃ round ∈ rounds, ∃ front back, round.GivesUp options.maxTickRetries front back fault) ∧
    (∀ round ∈ rounds, ∀ front back fault,
      round.GivesUp options.maxTickRetries front back fault →
      ∃ earlier, rounds = earlier ++ [round] ∧
        (∀ completed ∈ earlier, ∃ report, completed.outcome = .ok report) ∧
        callsOf rounds = callsOf earlier ++ front ++ [.tick] ∧
        round.start.InVain front ∧
        (round.start.outcomes front).length ≤ options.maxTickRetries ∧
        (b.after (callsOf earlier ++ front)).tick = (.error fault, done.broker)) ∧
    (∀ fault, done.outcome = some (.error fault) →
      (∀ line ∈ lines, eventOf line ≠ "run_completed") ∧
      (∀ call, fault ≠ .finished call) ∧
      ∀ p : Cli.Progress, let code := (p.outcome (.error (.broker fault))).exitCode
        (code = 2 ↔ ∃ front back, callsOf rounds = front ++ .tick :: back ∧
          (b.after front).RefusesFill) ∧
        (code = 2 ∨ code = 1)) ∧
    ∀ (config : Config) (planFile : String) (w : Cli.World) (p : Cli.Progress),
      let ended := Cli.replayPlan config planFile plan w p
      let replayed := replay plan ⟨planFile, config.run.maxTicks, config.run.maxTickRetries⟩
        (Cli.rounds w)
      ((ended.2.outcome ended.1).exitCode = 0 ↔ ∃ opened summary, Cli.Opens config w p opened ∧
        (replayed opened).outcome = some (.ok summary)) ∧
      ∀ opened fault, Cli.Opens config w p opened →
        (replayed opened).outcome = some (.error fault) →
        (ended.2.outcome ended.1).exitCode = (RunFault.broker fault).exitCode := by
  intro rounds done lines
  refine ⟨fun fault => ⟨fun h => ?_, ?_⟩, fun round hmem front back fault h => ?_,
    fun fault h => ⟨fun line hline hevent => ?_, fun call hlate => ?_, fun p => ?_⟩,
    fun config planFile w p => Cli.replayPlan_exit config planFile plan w p⟩
  · obtain ⟨round, hmem, houtcome⟩ := (replay_error_iff limit b fault).mp h
    obtain ⟨front, hgives⟩ := exists_givesUp hmem houtcome
    exact ⟨round, hmem, front, [], hgives⟩
  · rintro ⟨round, hmem, front, back, h⟩
    exact (replay_given_up hmem h).1
  · exact (replay_given_up hmem h).2
  · have hname := List.mem_map_of_mem (f := eventOf) hline
    rw [AuditLog.lines_events, hevent] at hname
    obtain ⟨entry, hentry, hname⟩ := List.mem_map.mp hname
    obtain ⟨rest, hentries, hrecords⟩ := replay_records plan options limit b
    rw [hentries] at hentry
    cases entry with
    | runCompleted total =>
      have hrest := (List.mem_cons.mp hentry).resolve_left (by simp)
      have hcompleted := hrecords.outcome_of_mem hrest
      rw [show (replay plan options limit b).outcome = some (.error fault) from h] at hcompleted
      cases hcompleted
    | _ => simp [AuditEntry.event] at hname
  · obtain ⟨round, hmem, houtcome⟩ := (replay_error_iff limit b fault).mp h
    obtain ⟨step, start, hactive, rfl⟩ := round_of_mem hmem
    obtain ⟨before, -, hvain, -, hlast⟩ := round_last plan options step hactive
    rw [hlast, hlate] at houtcome
    exact tick_not_late (hvain.active hactive) call houtcome
  · obtain ⟨hcode, hother⟩ := RunFault.exitCode_broker fault
    exact ⟨hcode.trans (replay_insolvent_iff h), hother⟩

/-- The session of `sampleTrader` with a service that leaves the first tick unanswered. -/
def sampleShort : Broker (ScriptedService Float) Float :=
  { sampleTrader with service := sampleTrader.service.failStep (.transport "offline") }

/-- One tick is lost and tried again, and the second refuses a fill. -/
theorem sample_replay_stops : ∃ shortfall,
    (replay ⟨[]⟩ ⟨"plan.json", none, 1⟩ 3 sampleShort).outcome =
      some (.error (.insolvent shortfall)) ∧
    (RunFault.broker (.insolvent shortfall)).exitCode = 2 ∧
    ∃ front back, callsOf (sampleShort.rounds ⟨[]⟩ ⟨"plan.json", none, 1⟩ 3 0) =
      front ++ .tick :: back ∧ (sampleShort.after front).RefusesFill := by
  obtain ⟨shortfall, hdone⟩ : ∃ shortfall,
      (replay ⟨[]⟩ ⟨"plan.json", none, 1⟩ 3 sampleShort).outcome =
        some (.error (.insolvent shortfall)) := ⟨_, rfl⟩
  obtain ⟨-, -, hend, -⟩ := replay_stops_at_fault ⟨[]⟩ ⟨"plan.json", none, 1⟩ 3 sampleShort
    ⟨["audit.log"], none, 0, ""⟩ "noon"
  obtain ⟨-, -, hcode⟩ := hend _ hdone
  obtain ⟨hrefuses, -⟩ := hcode ⟨"", [], .empty⟩
  exact ⟨shortfall, hdone, rfl, hrefuses.mp rfl⟩

end Broker
end Brokerage
