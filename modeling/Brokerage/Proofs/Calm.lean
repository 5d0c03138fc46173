/-
# A service that can be reached

A scripted service is calm without the transport failures that it has in store. The
calm service gives the same answer to whatever is answered at all
(`ScriptedService.submit_calm`, `ScriptedService.nextStep_calm`), and a failure
uses itself up and changes nothing else (`ScriptedService.submit_lost`,
`ScriptedService.nextStep_lost`). So a tick that is answered is the tick at the calm
service (`Broker.tick_calmed`). A tick that is not, once what it hands back has been
inserted again, leaves the tick at the calm service as it would have been
(`Broker.digest_retried`): if the submission failed, the same batch is accepted again,
and if the fetch failed, the batch has been taken and nothing is left to send. A replay
whose retries suffice is therefore, but for its journal and the counts of its orders,
the replay at the calm service (`Broker.replay_calmed`).

Key definitions: `lost`, `answersIn`, `ScriptedService.calm`,
`ScriptedService.meet`, `Broker.calmed`, `RunSummary.settled`, `Broker.SameEnd`.
Key theorems: `Broker.tick_calmed`, `Broker.digest_retried`,
`Broker.tickRetrying_calmed`, `Broker.round_calmed`, `Broker.advance_calmed`,
`Broker.replay_calmed`.
-/
import Brokerage.Proofs.Ending
import Brokerage.Proofs.Exact

namespace Brokerage

variable {α : Type} [Amount α]

def ServiceFault.isTransport : ServiceFault → Bool
  | .transport _ => true
  | .protocol _ => false

/-- The call got no answer. -/
def lost {β : Type} : Except ServiceFault β → Bool
  | .error fault => fault.isTransport
  | .ok _ => false

/-! ### The service -/

/-- The failures to come that are answers. -/
def answersIn (faults : List ServiceFault) : List ServiceFault :=
  faults.filter (!·.isTransport)

theorem answersIn_cons (fault : ServiceFault) (faults : List ServiceFault) :
    answersIn (fault :: faults) =
      if fault.isTransport then answersIn faults else fault :: answersIn faults := by
  cases fault <;> rfl

namespace ScriptedService

/-- The service without the transport failures to come. -/
def calm (s : ScriptedService α) : ScriptedService α :=
  { s with submitFaults := answersIn s.submitFaults, stepFaults := answersIn s.stepFaults }

/-- A call that meets with the failures in store, one by one, before it is answered. -/
def meet {β : Type} (faults : List ServiceFault) (rest : List ServiceFault → ScriptedService α)
    (answer : Except ServiceFault β × ScriptedService α) :
    Except ServiceFault β × ScriptedService α :=
  match faults with
  | fault :: faults => (.error fault, rest faults)
  | [] => answer

theorem submit_eq (session : SessionId) (orders : List (Order α)) (s : ScriptedService α) :
    s.submit session orders = forSession session s
      (meet s.submitFaults (fun faults => { s with submitFaults := faults })
        (.ok (), { s with batches := s.batches ++ [⟨session, orders⟩] })) := rfl

theorem nextStep_eq (session : SessionId) (s : ScriptedService α) :
    s.nextStep session = forSession session s
      (meet s.stepFaults (fun faults => { s with stepFaults := faults })
        (.ok s.nextReply.1, { s with
          script := s.nextReply.2
          served := s.served + 1
          hasNext := s.nextReply.1.hasNext
          now := s.nextReply.1.time.getD s.now })) := rfl

section

variable {β : Type} {session : SessionId} {s : ScriptedService α} {faults : List ServiceFault}
  {rest rest' : List ServiceFault → ScriptedService α}
  {answer : Except ServiceFault β × ScriptedService α}

/-- A failure that is no answer is used up. -/
theorem meet_lost (hrest : ∀ fault more, faults = fault :: more → fault.isTransport = true →
      (rest more).calm = s.calm) (hanswer : lost answer.1 = false)
    (h : lost (forSession session s (meet faults rest answer)).1 = true) :
    (forSession session s (meet faults rest answer)).2.calm = s.calm := by
  unfold forSession at h ⊢
  by_cases hs : session = s.session
  · rw [if_pos hs] at h ⊢
    cases faults with
    | nil => rw [show lost answer.1 = true from h] at hanswer; cases hanswer
    | cons fault more => exact hrest fault more rfl h
  · rw [if_neg hs] at h
    cases h

/-- What is answered is answered in the same way without the failures that are not. -/
theorem meet_calm (hrest : ∀ faults, rest' (answersIn faults) = (rest faults).calm)
    (h : lost (forSession session s (meet faults rest answer)).1 = false) :
    forSession session s.calm (meet (answersIn faults) rest' (answer.1, answer.2.calm)) =
      ((forSession session s (meet faults rest answer)).1,
        (forSession session s (meet faults rest answer)).2.calm) := by
  have hsession : s.calm.session = s.session := rfl
  unfold forSession at h ⊢
  rw [hsession]
  by_cases hs : session = s.session
  · rw [if_pos hs] at h ⊢
    rw [if_pos hs]
    cases faults with
    | nil => rfl
    | cons fault more =>
      have hfault : fault.isTransport = false := h
      rw [answersIn_cons, hfault]
      exact congrArg (Prod.mk _) (hrest more)
  · rw [if_neg hs, if_neg hs]

end

theorem submit_lost {session : SessionId} {orders : List (Order α)} {s : ScriptedService α}
    (h : lost (s.submit session orders).1 = true) :
    (s.submit session orders).2.calm = s.calm := by
  rw [submit_eq] at h ⊢
  refine meet_lost (fun fault more hfaults hfault => ?_) rfl h
  simp only [calm, hfaults, answersIn_cons, hfault, if_true]

theorem submit_calm {session : SessionId} {orders : List (Order α)} {s : ScriptedService α}
    (h : lost (s.submit session orders).1 = false) :
    s.calm.submit session orders =
      ((s.submit session orders).1, (s.submit session orders).2.calm) := by
  rw [submit_eq] at h
  rw [submit_eq, submit_eq]
  exact meet_calm (fun _ => rfl) h

theorem nextStep_lost {session : SessionId} {s : ScriptedService α}
    (h : lost (s.nextStep session).1 = true) : (s.nextStep session).2.calm = s.calm := by
  rw [nextStep_eq] at h ⊢
  refine meet_lost (fun fault more hfaults hfault => ?_) rfl h
  simp only [calm, hfaults, answersIn_cons, hfault, if_true]

theorem nextStep_calm {session : SessionId} {s : ScriptedService α}
    (h : lost (s.nextStep session).1 = false) :
    s.calm.nextStep session = ((s.nextStep session).1, (s.nextStep session).2.calm) := by
  rw [nextStep_eq] at h
  rw [nextStep_eq, nextStep_eq]
  exact meet_calm (fun _ => rfl) h

end ScriptedService

/-- Sorted again, what was accepted is accepted. -/
theorem Ledger.sift_accepted_again (l : Ledger α) (orders : List (Order α)) :
    (l.sift (l.sift orders).accepted).accepted = (l.sift orders).accepted := by
  rw [sift_accepted, sift_accepted, List.filter_filter]
  exact List.filter_congr fun _ _ => Bool.and_self _

namespace Broker

/-! ### One tick -/

/-- The broker at the calm service. -/
def calmed (b : Broker (ScriptedService α) α) : Broker (ScriptedService α) α :=
  b.onto b.service.calm

variable {b : Broker (ScriptedService α) α}

theorem submission_calmed (h : lost b.submission.1 = false) :
    b.calmed.submission = (b.submission.1, b.submission.2.calm) := by
  have hsifted : b.calmed.sifted = b.sifted := rfl
  unfold submission at h ⊢
  rw [hsifted]
  split at h
  · rename_i hnone
    rw [if_pos hnone, if_pos hnone]
    rfl
  · rename_i hsome
    rw [if_neg hsome, if_neg hsome]
    exact ScriptedService.submit_calm h

theorem submission_lost (h : lost b.submission.1 = true) :
    b.submission.2.calm = b.service.calm := by
  unfold submission at h ⊢
  split at h
  · cases h
  · rename_i hsome
    rw [if_neg hsome]
    exact ScriptedService.submit_lost h

theorem unanswered_ofService {β : Type} (cause : ServiceFault) (orders : List (Order α)) :
    unanswered (.error (.ofService cause orders) : Except (BrokerFault α) β) =
      cause.isTransport := by
  cases cause <;> rfl

/-- What is answered, the calm service answers in the same way. -/
theorem reply_calmed (h : unanswered b.reply.1 = false) :
    b.calmed.reply = (b.reply.1, b.reply.2.calm) := by
  have hsifted : b.calmed.sifted = b.sifted := rfl
  have hsession : b.calmed.session = b.session := rfl
  have hsubmission := submission_calmed (b := b)
  unfold reply at h ⊢
  rw [hsifted, hsession]
  rcases hs : b.submission with ⟨cause | _, s⟩
  · rw [hs] at h hsubmission
    rw [hsubmission ((unanswered_ofService cause _).symm.trans h)]
  · rw [hs] at h hsubmission
    rw [hsubmission rfl]
    simp only at h ⊢
    have hnext : Service.nextStep b.session s = s.nextStep b.session := rfl
    have hcalm : Service.nextStep b.session s.calm = s.calm.nextStep b.session := rfl
    rw [hnext] at h
    rw [hnext, hcalm]
    rcases hn : s.nextStep b.session with ⟨cause | reply, t⟩
    · rw [hn] at h
      have hkept : lost (s.nextStep b.session).1 = false := by
        rw [hn]
        exact (unanswered_ofService cause []).symm.trans h
      rw [ScriptedService.nextStep_calm hkept, hn]
    · have hkept : lost (s.nextStep b.session).1 = false := by rw [hn]; rfl
      rw [ScriptedService.nextStep_calm hkept, hn]

/-- Of an exchange without an answer the calm service knows nothing: it has taken the
orders, if they were taken, and if they come back it has not. -/
theorem reply_lost (h : unanswered b.reply.1 = true) :
    ∃ reason orders, b.reply.1 = .error (.transport reason orders) ∧
      ((b.reply.2.calm = b.service.calm ∧ orders = b.sifted.accepted) ∨
        (b.calmed.submission = (.ok (), b.reply.2.calm) ∧ orders = [])) := by
  have hsubmission := submission_calmed (b := b)
  have hlost := submission_lost (b := b)
  unfold reply at h ⊢
  rcases hs : b.submission with ⟨cause | _, s⟩
  · rw [hs] at h hlost
    cases cause with
    | transport reason => exact ⟨reason, _, rfl, .inl ⟨hlost rfl, rfl⟩⟩
    | protocol reason => cases h
  · rw [hs] at h hsubmission
    simp only at h ⊢
    have hnext : Service.nextStep b.session s = s.nextStep b.session := rfl
    rw [hnext] at h ⊢
    rcases hn : s.nextStep b.session with ⟨cause | reply, t⟩
    · rw [hn] at h
      cases cause with
      | protocol reason => cases h
      | transport reason =>
        have hkept : (s.nextStep b.session).2.calm = s.calm :=
          ScriptedService.nextStep_lost (by rw [hn]; rfl)
        rw [hn] at hkept
        refine ⟨reason, [], rfl, .inr ⟨?_, rfl⟩⟩
        rw [hsubmission rfl]
        exact congrArg (Prod.mk _) hkept.symm
    · rw [hn] at h
      cases h

/-- **A tick that is answered** is the tick at the calm service. -/
theorem tick_calmed (h : unanswered b.tick.1 = false) :
    b.calmed.tick = (b.tick.1, b.tick.2.calmed) := by
  have hdue : b.calmed.due = (b.due.1, b.due.2.calmed) := by
    cases hactive : b.finished with
    | true =>
      rw [due_finished hactive, due_finished (b := b.calmed) hactive]
    | false =>
      cases hheld : b.held with
      | some step =>
        rw [due_resumed hactive hheld, due_resumed (b := b.calmed) hactive hheld]
        rfl
      | none =>
        rw [unanswered_fresh hactive hheld] at h
        rw [due_of_reply hactive hheld, due_of_reply (b := b.calmed) hactive hheld,
          reply_calmed h]
        rcases b.reply with ⟨fault | reply, s⟩
        · rfl
        · simp only
          cases reply.check <;> rfl
  rw [tick_eq, tick_eq, hdue]
  rcases b.due with ⟨fault | ⟨step, report⟩, c⟩
  · rfl
  · exact c.applyStep_onto ScriptedService.calm step report

/-! ### A tick that is tried again -/

/-- The exchange with the service is decided by the accepted orders. -/
theorem reply_of_accepted {σ : Type} [Service σ α] {b c : Broker σ α}
    (haccepted : b.sifted.accepted = c.sifted.accepted) (hsession : b.session = c.session)
    (hservice : b.service = c.service) : b.reply = c.reply := by
  unfold reply submission
  rw [haccepted, hsession, hservice]

/-- Once the orders have been taken, it is decided by where the service stands. -/
theorem reply_of_submission {σ : Type} [Service σ α] {b c : Broker σ α} {s : σ}
    (hb : b.submission = (.ok (), s)) (hc : c.submission = (.ok (), s))
    (hsession : b.session = c.session) : b.reply = c.reply := by
  unfold reply
  rw [hb, hc, hsession]

/-- **A tick that is tried again** would have come to the same at the calm service
without the attempt that failed. -/
theorem digest_retried (h : unanswered b.tick.1 = true) :
    digest (b.tick.2.after ((handedBack b.tick.1).map .insert)).calmed.tick =
      digest b.calmed.tick := by
  obtain ⟨hactive, hfree, hreply, htick⟩ := tick_unanswered h
  obtain ⟨reason, orders, hlost, hcause⟩ := reply_lost hreply
  obtain ⟨hafter, -⟩ := after_inserts (handedBack b.tick.1) (active_of_unanswered h)
  have hback : handedBack b.tick.1 = orders := by
    rw [htick, hlost]
    rfl
  rw [hafter, hback, htick]
  refine digest_fresh ⟨hactive, hfree⟩ ⟨hactive, hfree⟩ (fun _ => rfl) ?_
  rcases hcause with ⟨hservice, rfl⟩ | ⟨hsubmission, rfl⟩
  · -- The batch comes back, and the ledger accepts it once more.
    exact reply_of_accepted (b.account.ledger.sift_accepted_again _) rfl hservice
  · -- The batch was taken, so there is nothing to send.
    exact reply_of_submission rfl hsubmission rfl

/-- The last attempt of a tick comes to what a single tick at the calm service does. -/
theorem digest_attempts (limit : Nat) : ∀ (left : Nat) (b : Broker (ScriptedService α) α),
    let retried := tickRetrying limit left b
    unanswered retried.1 = false →
      digest (retried.1, retried.2.1.calmed) = digest b.calmed.tick
  | 0, b => by
    rw [tickRetrying_zero]
    intro _ h
    rw [tick_calmed h]
  | left + 1, b => by
    cases h : unanswered b.tick.1 with
    | false =>
      rw [tickRetrying_answered limit (left + 1) h]
      intro _ _
      rw [tick_calmed h]
    | true =>
      obtain ⟨note, hretried⟩ := tickRetrying_unanswered limit left h
      rw [hretried]
      intro _ hanswered
      rw [← digest_retried h]
      exact digest_attempts limit left _ hanswered

theorem unanswered_plain (outcome : Except (BrokerFault α) (TickReport α)) :
    unanswered (outcome.map TickReport.plain) = unanswered outcome := by
  rcases outcome with fault | report
  · cases fault <;> rfl
  · rfl

/-- **Retries that suffice** make no difference, whatever the journals. -/
theorem tickRetrying_calmed (limit left : Nat) {c : Broker (ScriptedService α) α}
    (hc : c.quiet = b.calmed.quiet) :
    let retried := tickRetrying limit left b
    let calm := tickRetrying limit left c
    unanswered retried.1 = false →
      digest (calm.1, calm.2.1) = digest (retried.1, retried.2.1.calmed) := by
  intro retried calm h
  have hdigest : digest (retried.1, retried.2.1.calmed) = digest c.tick := by
    rw [digest_attempts limit left b h, digest_tick hc]
  have houtcome : retried.1.map TickReport.plain = c.tick.1.map TickReport.plain :=
    congrArg Prod.fst hdigest
  have hanswered : unanswered c.tick.1 = false := by
    rw [← unanswered_plain, ← houtcome, unanswered_plain, h]
  show digest ((tickRetrying limit left c).1, (tickRetrying limit left c).2.1) = _
  rw [tickRetrying_answered limit left hanswered, hdigest]

/-! ### A replay -/

theorem active_of_quiet {b c : Broker (ScriptedService α) α} (hc : c.quiet = b.calmed.quiet) :
    c.finished = b.finished :=
  congrArg (·.finished) hc

theorem after_inserts_calmed {b c : Broker (ScriptedService α) α} (hc : c.quiet = b.calmed.quiet)
    (hactive : b.finished = false) (orders : List (Order α)) :
    (c.after (orders.map .insert)).quiet = (b.after (orders.map .insert)).calmed.quiet := by
  obtain ⟨hb, -⟩ := after_inserts orders hactive
  obtain ⟨hc', -⟩ := after_inserts orders ((active_of_quiet hc).trans hactive)
  rw [hb, hc']
  exact congrArg (fun b => b.recast b.service (b.account.blotter.pending ++ orders)) hc

variable (plan : Plan α) (options : RunOptions)

/-- A round whose retries suffice comes to the same at the calm service. -/
theorem round_calmed {b c : Broker (ScriptedService α) α} (hc : c.quiet = b.calmed.quiet)
    (hactive : b.finished = false) (step : Nat)
    (h : (b.round plan options step).losses ≤ options.maxTickRetries) :
    (c.round plan options step).outcome.map TickReport.plain =
        (b.round plan options step).outcome.map TickReport.plain ∧
      (c.round plan options step).finish.quiet =
        (b.round plan options step).finish.calmed.quiet := by
  have hanswered : unanswered (b.round plan options step).outcome = false := by
    cases hlost : unanswered (b.round plan options step).outcome with
    | false => rfl
    | true =>
      have := losses_of_unanswered plan options step hactive hlost
      omega
  have hretried := tickRetrying_calmed options.maxTickRetries options.maxTickRetries
    (after_inserts_calmed hc hactive (plan.ordersFor step)) hanswered
  rw [finish_round, finish_round]
  exact Prod.mk.inj hretried

end Broker

/-- The summary without what it tells of the orders that were sent. -/
def RunSummary.settled (s : RunSummary α) : RunSummary α :=
  { s with submitted := 0, rejected := 0 }

theorem RunSummary.settled_count {s s' : RunSummary α} {report report' : TickReport α}
    (hs : s.settled = s'.settled) (hreport : report.plain = report'.plain) :
    (s.count report).settled = (s'.count report').settled := by
  have hcount : ∀ (s : RunSummary α) (report : TickReport α),
      (s.count report).settled = (s.settled.count report.plain).settled := fun _ _ => rfl
  rw [hcount, hcount s', hs, hreport]

namespace Broker

variable (plan : Plan α) (options : RunOptions)

/-- **A replay whose retries suffice** comes to the same at the calm service. -/
theorem advance_calmed : ∀ (limit : Nat) (s s' : RunSummary α)
    (run run' : Run (ScriptedService α) α), run'.broker.quiet = run.broker.calmed.quiet →
      s'.settled = s.settled →
      (∀ round ∈ run.broker.rounds plan options limit s.ticks,
        round.losses ≤ options.maxTickRetries) →
      let done := run.advance plan options limit s
      let calm := run'.advance plan options limit s'
      calm.broker.quiet = done.broker.calmed.quiet ∧
        calm.outcome.map (Except.map RunSummary.settled) =
          done.outcome.map (Except.map RunSummary.settled)
  | 0, _, _, _, _, hbroker, _, _ => ⟨hbroker, rfl⟩
  | limit + 1, s, s', run, run', hbroker, hs, h => by
    have hticks : s'.ticks = s.ticks := congrArg (·.ticks) hs
    have hfinished := active_of_quiet hbroker
    cases hgo : run.broker.finished || options.maxTicks.any (· ≤ s.ticks) with
    | true =>
      obtain ⟨notes, hdone⟩ := advance_over plan options limit s run hgo
      obtain ⟨notes', hcalm⟩ := advance_over plan options limit s' run'
        (by rw [hfinished, hticks]; exact hgo)
      rw [hdone, hcalm]
      refine ⟨hbroker, congrArg (some ∘ Except.ok) ?_⟩
      have hledger : run'.broker.account.ledger = run.broker.account.ledger :=
        congrArg (·.account.ledger) hbroker
      show { s'.settled with
          finalCash := run'.broker.account.ledger.cash
          finished := run'.broker.finished } = ({ s.settled with
          finalCash := run.broker.account.ledger.cash
          finished := run.broker.finished } : RunSummary α)
      rw [hs, hfinished, hledger]
    | false =>
      obtain ⟨notes, hdone⟩ := advance_round plan options limit s run hgo
      obtain ⟨notes', hcalm⟩ := advance_round plan options limit s' run'
        (by rw [hfinished, hticks]; exact hgo)
      obtain ⟨hactive, -⟩ := Bool.or_eq_false_iff.mp hgo
      rw [rounds_active limit hgo] at h
      obtain ⟨houtcome, hfinish⟩ := round_calmed plan options hbroker hactive s.ticks
        (h _ List.mem_cons_self)
      rw [hdone, hcalm, hticks]
      cases ho : (run.broker.round plan options s.ticks).outcome with
      | error fault =>
        rw [ho] at houtcome
        cases ho' : (run'.broker.round plan options s.ticks).outcome with
        | ok report => rw [ho'] at houtcome; cases houtcome
        | error fault' =>
          rw [ho'] at houtcome
          obtain rfl : fault' = fault := Except.error.inj houtcome
          exact ⟨hfinish, rfl⟩
      | ok report =>
        rw [ho] at houtcome h
        cases ho' : (run'.broker.round plan options s.ticks).outcome with
        | error fault => rw [ho'] at houtcome; cases houtcome
        | ok report' =>
          rw [ho'] at houtcome
          exact advance_calmed limit _ _ _ _ hfinish
            (RunSummary.settled_count hs (Except.ok.inj houtcome))
            fun round hround => h round (List.mem_cons_of_mem _ hround)

/-- `c` ends where `b` does: with the same account, log, values and market, and at a
service that was sent the same batches and served as many steps. -/
structure SameEnd (b c : Broker (ScriptedService α) α) : Prop where
  ledger : c.account.ledger = b.account.ledger
  resting : c.account.blotter.resting = b.account.blotter.resting
  pending : c.account.blotter.pending = b.account.blotter.pending
  tradeLog : c.tradeLog = b.tradeLog
  values : c.values = b.values
  quotes : c.quotes = b.quotes
  depths : c.depths = b.depths
  now : c.now = b.now
  finished : c.finished = b.finished
  held : c.held = b.held
  batches : c.service.batches = b.service.batches
  served : c.service.served = b.service.served

theorem SameEnd.of_quiet {b c : Broker (ScriptedService α) α} (h : c.quiet = b.calmed.quiet) :
    SameEnd b c where
  ledger := congrArg (·.account.ledger) h
  resting := congrArg (·.account.blotter.resting) h
  pending := congrArg (·.account.blotter.pending) h
  tradeLog := congrArg (·.tradeLog) h
  values := congrArg (·.values) h
  quotes := congrArg (·.quotes) h
  depths := congrArg (·.depths) h
  now := congrArg (·.now) h
  finished := congrArg (·.finished) h
  held := congrArg (·.held) h
  batches := congrArg (·.service.batches) h
  served := congrArg (·.service.served) h

/-- **Transport failures that are retried make no difference.** Take a broker at a
scripted service that has any failures in store, and a replay in which no round loses
more ticks than may be tried again. The replay at the same service without the
transport failures ends in the same place. Both are completed, and with the same
summary but for the orders that were submitted and rejected, or both end with the same
fault; and with more rounds than the script has steps they do end. -/
theorem replay_calmed (limit : Nat) (b : Broker (ScriptedService α) α)
    (h : ∀ round ∈ b.rounds plan options limit 0, round.losses ≤ options.maxTickRetries) :
    let done := replay plan options limit b
    let calm := replay plan options limit b.calmed
    SameEnd done.broker calm.broker ∧
    calm.outcome.map (Except.map RunSummary.settled) =
      done.outcome.map (Except.map RunSummary.settled) ∧
    (b.service.script.length + 2 < limit → done.outcome ≠ none) := by
  intro done calm
  let run : Run (ScriptedService α) α :=
    ⟨b, [.runStarted options.planFile b.account.ledger.cash], []⟩
  let start : RunSummary α := ⟨b.session, 0, 0, 0, 0, b.account.ledger.cash, none, false⟩
  obtain ⟨hbroker, houtcome⟩ := advance_calmed plan options limit start start run
    { run with broker := b.calmed } rfl rfl h
  refine ⟨.of_quiet hbroker, houtcome, fun hlimit => ?_⟩
  refine stepsLeft_dwindles.advance_ends plan options limit start run
    (Nat.lt_of_le_of_lt ?_ hlimit)
  show b.stepsLeft ≤ _
  unfold stepsLeft
  split
  · exact Nat.zero_le _
  · split <;> omega

/-- The sample session at a service that loses a batch, and then a reply. -/
def sampleRough : Broker (ScriptedService Rat) Rat :=
  sampleBroker.onto
    (((sampleScenario.service.pushStep sampleQuietReply).failSubmit (.transport "offline")).failStep
      (.transport "timeout"))

/-- Two retries get the batch through and the session to its end, and all is as it
would have been. -/
theorem sample_replay_calmed :
    let plan : Plan Rat := ⟨[⟨0, sampleOrder⟩]⟩
    let options : RunOptions := ⟨"plan.json", none, 2⟩
    (∀ round ∈ sampleRough.rounds plan options 4 0, round.losses ≤ 2) ∧
    SameEnd (replay plan options 4 sampleRough).broker
      (replay plan options 4 sampleRough.calmed).broker ∧
    (replay plan options 4 sampleRough).outcome ≠ none := by
  intro plan options
  have hlosses : ∀ round ∈ sampleRough.rounds plan options 4 0, round.losses ≤ 2 := by
    decide +kernel
  obtain ⟨hend, -, houtcome⟩ := replay_calmed plan options 4 sampleRough hlosses
  exact ⟨hlosses, hend, houtcome (by decide)⟩

end Broker
end Brokerage
