/-
# Resuming a held step

A step with items that fail is applied in several ticks: each of them but the last
stops at one failing item, drops it and holds what comes after it. In the end the
broker is where a single tick would have brought it on the same step without those
items, and the orders inserted on the way are still pending
(`Broker.held_step_resumes`).

`Broker.proceed` is the application of a step together with the ticks that resume
it. Its first failing item is taken off by `proceed_snag`; what is left of the
step is applied in the same way, so the two statements about all failing items go
by induction on the ticks.

Key definitions: `resuming`, `Broker.proceed`, `Broker.StoppedAfter`.
Key theorems: `Broker.proceed_snag`, `Broker.proceed_partly`,
`Broker.proceed_wholly`, `Broker.clean_tick`, `Broker.held_step_resumes`.
-/
import Brokerage.Proofs.Exact
import Brokerage.Proofs.Frame
import Brokerage.Proofs.Reply

namespace Brokerage

variable {σ τ α : Type} [Amount α]

/-- Ticks, each after the insertion of some orders. -/
def resuming : List (List (Order α)) → List (Call α)
  | [] => []
  | orders :: between => orders.map .insert ++ .tick :: resuming between

theorem ScriptedService.forSession_own {β : Type} (s : ScriptedService α)
    (answer : Except ServiceFault β × ScriptedService α) :
    forSession s.session s answer = answer :=
  if_pos rfl

namespace Broker

/-! ### A step and the ticks that resume it -/

section

variable [Service σ α]

/-- What applying a step and the ticks after it yield, and where they lead. -/
def proceed (b : Broker σ α) (step : Step α) (report : TickReport α)
    (between : List (List (Order α))) :
    List (Except (BrokerFault α) (TickReport α)) × Broker σ α :=
  ((b.applyStep step report).1 :: (b.applyStep step report).2.outcomes (resuming between),
    (b.applyStep step report).2.after (resuming between))

/-- Going on with a held step is applying it, with the orders inserted in
between. -/
theorem resume_holding {b : Broker σ α} (hactive : b.finished = false) (hfree : b.held = none)
    (step : Step α) (orders : List (Order α)) (between : List (List (Order α))) :
    ((b.holding step).outcomes (resuming (orders :: between)),
        (b.holding step).after (resuming (orders :: between))) =
      (b.recast b.service (b.account.blotter.pending ++ orders)).proceed step blankReport
        between := by
  obtain ⟨hafter, houtcomes⟩ := after_inserts orders (b := b.holding step) hactive
  have hsame : (b.holding step).recast (b.holding step).service
      ((b.holding step).account.blotter.pending ++ orders) =
        (b.recast b.service (b.account.blotter.pending ++ orders)).holding step := rfl
  rw [hsame] at hafter
  have htick := tick_holding (b := b.recast b.service (b.account.blotter.pending ++ orders))
    hactive hfree step
  rw [resuming, outcomes_append, after_append, houtcomes, hafter, List.nil_append, outcomes_tick,
    htick, proceed, ← htick]
  rfl

/-- **The first failing item** ends the tick. The next one goes on behind it. -/
theorem proceed_snag {b : Broker σ α} (hactive : b.finished = false) (hfree : b.held = none)
    {step : Step α} {cause : Discrepancy α} {rest : List (StepItem α)}
    {more : List (Discrepancy α × List (StepItem α))}
    (h : snags takeItem b step.items = (cause, rest) :: more) :
    ∃ done i c, step.items = done ++ i :: rest ∧ (step.keeping rest).items = rest ∧
      feed takeItem b done = (c, none) ∧ c.takeItem i = .error cause ∧
      snags takeItem c rest = more ∧ SameFrame b c ∧ ∀ report,
        b.applyStep step report =
          (.error (.ofDiscrepancy cause), c.holding (step.keeping rest)) ∧
        ∀ orders between, b.proceed step report (orders :: between) =
          let resumed := (c.recast b.service (b.account.blotter.pending ++ orders)).proceed
            (step.keeping rest) blankReport between
          (.error (.ofDiscrepancy cause) :: resumed.1, resumed.2) := by
  obtain ⟨done, i, c, hitems, hdone, hi, hfeed, hmore⟩ := feed_of_snags_cons h
  have hframe := feed_frame hdone
  have hsub : rest.Sublist step.items := by
    rw [hitems]
    exact (List.sublist_cons_self i rest).trans (List.sublist_append_right done (i :: rest))
  have hkept := Step.items_keeping hsub
  refine ⟨done, i, c, hitems, hkept, hdone, hi, hmore, hframe, fun report => ?_⟩
  have happly : b.applyStep step report =
      (.error (.ofDiscrepancy cause), c.holding (step.keeping rest)) := by
    rw [applyStep_eq, hfeed]
    rfl
  refine ⟨happly, fun orders between => ?_⟩
  have hresume := resume_holding (hframe.finished.trans hactive) (hframe.held.trans hfree)
    (step.keeping rest) orders between
  rw [hframe.service, hframe.pending] at hresume
  rw [← hresume, proceed, happly]

/-- **Part of the way:** as many failures have been met as there were ticks, every
item that passes has been taken up to the last of them, and the items after it are
held. -/
theorem proceed_partly : ∀ (between : List (List (Order α))) {b : Broker σ α},
    b.finished = false → b.held = none → ∀ {step : Step α} {cause : Discrepancy α}
      {rest : List (StepItem α)},
      (snags takeItem b step.items)[between.length]? = some (cause, rest) → ∀ report,
        ∃ front i c, step.items = front ++ i :: rest ∧
          feed takeItem b (passing takeItem b front) = (c, none) ∧ c.takeItem i = .error cause ∧
          b.proceed step report between =
            (((snags takeItem b step.items).take (between.length + 1)).map
                fun snag => .error (.ofDiscrepancy snag.1),
              (c.recast b.service (b.account.blotter.pending ++ between.flatten)).holding
                (step.keeping rest))
  | between, b, hactive, hfree, step, cause, rest, h, report => by
    cases hs : snags takeItem b step.items with
    | nil => rw [hs] at h; cases h
    | cons first more =>
      rw [hs] at h
      obtain ⟨cause₁, rest₁⟩ := first
      obtain ⟨done, i, c, hitems, hkept, hdone, hi, hmore, hframe, happly⟩ :=
        proceed_snag hactive hfree hs
      obtain ⟨happly, hproceed⟩ := happly report
      cases between with
      | nil =>
        obtain ⟨rfl, rfl⟩ := Prod.mk.inj (Option.some.inj h)
        have hpass : passing takeItem b done = done := passing_of_feed hdone
        have hsame : c.recast b.service b.account.blotter.pending = c := by
          rw [← hframe.service, ← hframe.pending, recast_self]
        refine ⟨done, i, c, hitems, by rw [hpass, hdone], hi, ?_⟩
        rw [List.flatten_nil, List.append_nil, hsame, proceed, happly]
        rfl
      | cons orders between =>
        -- The next tick applies the rest to a broker that differs in its pending orders only.
        have hnext : (snags takeItem (c.recast b.service (b.account.blotter.pending ++ orders))
            (step.keeping rest₁).items)[between.length]? = some (cause, rest) := by
          rw [hkept, snags_recast, hmore]
          exact h
        obtain ⟨front, j, d, hfront, hfeed, hj, hrest⟩ := proceed_partly between
          (b := c.recast b.service (b.account.blotter.pending ++ orders))
          (hframe.finished.trans hactive) (hframe.held.trans hfree) hnext blankReport
        rw [passing_recast, feed_recast] at hfeed
        obtain ⟨rfl, hnone⟩ := Prod.mk.inj hfeed
        rw [hkept] at hfront
        refine ⟨done ++ i :: front, j, (feed takeItem c (passing takeItem c front)).1,
          ?_, ?_, ?_, ?_⟩
        · rw [hitems, hfront, List.append_assoc, List.cons_append]
        · rw [feed_passing_past hdone hi]
          exact Prod.ext rfl hnone
        · exact takeItem_error_of_recast hj
        · rw [hproceed, hrest, hkept, snags_recast, hmore, List.flatten_cons, ← List.append_assoc]
          rfl

/-- **All the way:** with a tick for every failing item and one more, the items
that pass have been taken and the step is concluded. -/
theorem proceed_wholly : ∀ (between : List (List (Order α))) {b : Broker σ α},
    b.finished = false → b.held = none → ∀ {step : Step α},
      (snags takeItem b step.items).length = between.length → ∀ report,
        report.ending = (none, none, false) → ∃ c report',
          report'.ending = (none, none, false) ∧
          feed takeItem b (passing takeItem b step.items) = (c, none) ∧
          b.proceed step report between =
            ((snags takeItem b step.items).map (fun snag => .error (.ofDiscrepancy snag.1)) ++
                [(c.conclude step report').1],
              (c.conclude step report').2.recast b.service
                (b.account.blotter.pending ++ between.flatten))
  | between, b, hactive, hfree, step, h, report, hblank => by
    cases hs : snags takeItem b step.items with
    | nil =>
      rw [hs] at h
      obtain rfl := List.eq_nil_of_length_eq_zero h.symm
      obtain ⟨hpass, hnone⟩ := feed_of_snags_nil hs
      rcases hfeed : feed takeItem b step.items with ⟨c, stop⟩
      rw [hfeed] at hnone
      obtain rfl : stop = none := hnone
      have hframe := feed_frame hfeed
      refine ⟨c, { report with executed := step.executed, inserted := step.inserted.map (·.1) },
        hblank, by rw [hpass, hfeed], ?_⟩
      rw [List.flatten_nil, List.append_nil, ← hframe.service, ← hframe.pending,
        conclude_recast_self, proceed, applyStep_eq, hfeed]
      rfl
    | cons first more =>
      rw [hs] at h
      obtain ⟨cause₁, rest₁⟩ := first
      obtain ⟨done, i, c, hitems, hkept, hdone, hi, hmore, hframe, happly⟩ :=
        proceed_snag hactive hfree hs
      obtain ⟨happly, hproceed⟩ := happly report
      cases between with
      | nil => cases h
      | cons orders between =>
        have hnext : (snags takeItem (c.recast b.service (b.account.blotter.pending ++ orders))
            (step.keeping rest₁).items).length = between.length := by
          rw [hkept, snags_recast, hmore]
          exact Nat.succ.inj h
        obtain ⟨d, report', hblank', hfeed, hrest⟩ := proceed_wholly between
          (b := c.recast b.service (b.account.blotter.pending ++ orders))
          (hframe.finished.trans hactive) (hframe.held.trans hfree) hnext blankReport rfl
        rw [hkept, passing_recast, feed_recast] at hfeed
        obtain ⟨rfl, hnone⟩ := Prod.mk.inj hfeed
        refine ⟨(feed takeItem c (passing takeItem c rest₁)).1, report', hblank', ?_, ?_⟩
        · rw [hitems, feed_passing_past hdone hi]
          exact Prod.ext rfl hnone
        · rw [hproceed, hrest, hkept, snags_recast, hmore, List.flatten_cons, ← List.append_assoc]
          simp only [conclude_recast]
          rfl

end

/-! ### Against a step without the failing items -/

/-- `c` has applied some items of a step that `b` began, and holds the rest. -/
structure StoppedAfter (b c : Broker σ α) (s : σ) (applied : List (StepItem α))
    (orders : List (Order α)) (rest : Step α) : Prop where
  account : feed Account.take (b.account.buffering orders) applied = (c.account, none)
  tradeLog : c.tradeLog = b.tradeLog ++ executionsIn applied
  inserted : c.insertedLastTick = (placementsIn applied).map (·.1)
  held : c.held = some rest
  active : c.finished = false
  service : c.service = s
  pending : c.account.blotter.pending = orders
  quotes : c.quotes = b.quotes
  depths : c.depths = b.depths
  now : c.now = b.now
  values : c.values = b.values

theorem snags_begun (b : Broker σ α) (s : σ) (items : List (StepItem α)) :
    snags takeItem (b.begun s) items = snags Account.take b.account items := by
  rw [← snags_account]
  exact snags_hom (fun a i => a.take_buffering [] i) items b.account

theorem passing_begun (b : Broker σ α) (s : σ) (items : List (StepItem α)) :
    passing takeItem (b.begun s) items = passing Account.take b.account items := by
  rw [← passing_account]
  exact passing_hom (fun a i => a.take_buffering [] i) items b.account

theorem stopped_of_feed {b d : Broker σ α} {s : σ} {items : List (StepItem α)}
    (hactive : b.finished = false) (h : feed takeItem (b.begun s) items = (d, none))
    (orders : List (Order α)) (rest : Step α) :
    StoppedAfter b ((d.recast s orders).holding rest) s items orders rest := by
  have hframe := feed_frame h
  obtain ⟨hlog, hinserted⟩ := feed_logs h
  have haccount : feed Account.take (b.account.buffering orders) items =
      (d.account.buffering orders, none) := by
    have hfeed := feed_account items ((b.begun s).recast s orders)
    rw [feed_recast, h] at hfeed
    exact hfeed
  exact {
    account := haccount
    tradeLog := hlog
    inserted := hinserted
    held := rfl
    active := hframe.finished.trans hactive
    service := rfl
    pending := rfl
    quotes := hframe.quotes
    depths := hframe.depths
    now := hframe.now
    values := hframe.values }

/-- A service that has one reply to give. -/
def replying (session : SessionId) (reply : StepReply α) : ScriptedService α :=
  ({ Scenario.blank with session := session } : Scenario α).service.pushStep reply

theorem delivery_replying (b : Broker σ α) (reply : StepReply α) :
    ∃ t, (b.onto (replying b.session reply)).delivery = (.ok reply, t) := by
  have hnext : ∀ batches, (Service.nextStep b.session
      { replying b.session reply with batches := batches }).1 = .ok reply := by
    intro batches
    exact congrArg Prod.fst
      (ScriptedService.forSession_own { replying b.session reply with batches := batches } _)
  have hsubmit : ∃ batches, (b.onto (replying b.session reply)).submission =
      (.ok (), { replying b.session reply with batches := batches }) := by
    unfold submission
    split
    · exact ⟨_, rfl⟩
    · exact ⟨_, ScriptedService.forSession_own (replying b.session reply) _⟩
  obtain ⟨batches, hsubmit⟩ := hsubmit
  unfold delivery
  rw [hsubmit]
  exact ⟨_, Prod.ext (hnext batches) rfl⟩

/-- A single tick on the step without its failing items takes the others and
concludes. -/
theorem clean_tick {b : Broker σ α} (hactive : b.finished = false) (hfree : b.held = none)
    {reply : StepReply α} {step : Step α} (hcheck : reply.check = .ok step) {c : Broker σ α} {s : σ}
    (hfeed : feed takeItem (b.begun s) (passing takeItem (b.begun s) step.items) = (c, none))
    [Service τ α] {t t' : τ}
    (h : (b.onto t).delivery =
      (.ok (reply.keeping (passing Account.take b.account step.items)), t')) :
    ∃ report, report.ending = (none, none, false) ∧ (b.onto t).tick =
      ((c.conclude step report).1, (c.conclude step report).2.recast t' []) := by
  have hsub : (passing Account.take b.account step.items).Sublist step.items :=
    passing_sublist _ _
  have hsame : (b.onto t).begun t' = (b.begun s).recast t' [] := rfl
  have htick := tick_of_delivery (b := b.onto t) hactive hfree h
    (StepReply.check_keeping hcheck hsub)
  rw [hsame, applyStep_eq, Step.items_keeping hsub, feed_recast, ← passing_begun b s, hfeed]
    at htick
  refine ⟨_, ?_, htick.trans (conclude_recast t' [] c step _)⟩
  rfl

section

variable [Service σ α]

/-- A run that starts with a fresh step applies it and resumes it. -/
theorem run_begun {b : Broker σ α} (hactive : b.finished = false) (hfree : b.held = none)
    {reply : StepReply α} {s : σ} (hdelivery : b.delivery = (.ok reply, s)) {step : Step α}
    (hcheck : reply.check = .ok step) (between : List (List (Order α))) :
    (b.outcomes (.tick :: resuming between), b.after (.tick :: resuming between)) =
      (b.begun s).proceed step b.sendReport between := by
  have htick := tick_of_delivery hactive hfree hdelivery hcheck
  rw [outcomes_tick, proceed, ← htick]
  rfl

theorem resumes_partly {b : Broker σ α} (hactive : b.finished = false) (hfree : b.held = none)
    {reply : StepReply α} {s : σ} (hdelivery : b.delivery = (.ok reply, s)) {step : Step α}
    (hcheck : reply.check = .ok step) {between : List (List (Order α))} {cause : Discrepancy α}
    {rest : List (StepItem α)}
    (h : (snags Account.take b.account step.items)[between.length]? = some (cause, rest)) :
    b.outcomes (.tick :: resuming between) =
        ((snags Account.take b.account step.items).take (between.length + 1)).map
          (fun snag => .error (.ofDiscrepancy snag.1)) ∧
      ∃ front i, step.items = front ++ i :: rest ∧
        (b.after (.tick :: resuming between)).account.take i = .error cause ∧
        StoppedAfter b (b.after (.tick :: resuming between)) s
          (passing Account.take b.account front) between.flatten (step.keeping rest) := by
  have hrun := run_begun hactive hfree hdelivery hcheck between
  rw [← snags_begun b s] at h ⊢
  obtain ⟨front, i, d, hitems, hfeed, hi, hproceed⟩ :=
    proceed_partly between (b := b.begun s) hactive hfree h b.sendReport
  obtain ⟨houtcomes, hafter⟩ := Prod.mk.inj (hrun.trans hproceed)
  have hstopped := stopped_of_feed hactive hfeed between.flatten (step.keeping rest)
  rw [passing_begun] at hstopped
  have hitem : (d.recast s between.flatten).account.take i = .error cause := by
    rw [takeItem_account, takeItem_recast, hi]
    rfl
  rw [hafter]
  exact ⟨houtcomes, front, i, hitems, hitem, hstopped⟩

theorem resumes_wholly {b : Broker σ α} (hactive : b.finished = false) (hfree : b.held = none)
    {reply : StepReply α} {s : σ} (hdelivery : b.delivery = (.ok reply, s)) {step : Step α}
    (hcheck : reply.check = .ok step) {between : List (List (Order α))}
    (h : between.length = (snags Account.take b.account step.items).length) [Service τ α]
    {t t' : τ} (hclean : (b.onto t).delivery =
      (.ok (reply.keeping (passing Account.take b.account step.items)), t')) :
    ∃ last, b.outcomes (.tick :: resuming between) =
        (snags Account.take b.account step.items).map (fun snag => .error (.ofDiscrepancy snag.1))
          ++ [last] ∧
      last.map TickReport.ending = (b.onto t).tick.1.map TickReport.ending ∧
      ((∃ report, last = .ok report) ∨ ∃ symbol, last = .error (.staleQuote symbol)) ∧
      (b.after (.tick :: resuming between)).held = none ∧
      b.after (.tick :: resuming between) = (b.onto t).tick.2.recast s between.flatten := by
  have hrun := run_begun hactive hfree hdelivery hcheck between
  rw [← snags_begun b s] at h ⊢
  obtain ⟨c, report, hblank, hfeed, hproceed⟩ :=
    proceed_wholly between (b := b.begun s) hactive hfree h.symm b.sendReport rfl
  obtain ⟨houtcomes, hafter⟩ := Prod.mk.inj (hrun.trans hproceed)
  obtain ⟨report', hblank', htick⟩ := clean_tick hactive hfree hcheck hfeed hclean
  obtain ⟨hstate, hending⟩ := conclude_ending c step (hblank.trans hblank'.symm)
  have hheld : c.held = none := (feed_frame hfeed).held.trans hfree
  have hkept := c.conclude_keeps (·.held) (fun _ _ _ _ _ _ _ => rfl) step report
  refine ⟨_, houtcomes, ?_, conclude_outcome c step report, ?_, ?_⟩
  · rw [htick]
    exact hending
  · rw [hafter]
    exact hkept.trans hheld
  · rw [hafter, htick, hstate]
    rfl

/-- **A held step resumes** to where the step without its failing items leads. As
many items as fail, so many ticks report them, one after the other. After each of
them the items that stand before the failing one, without those reported earlier,
have been applied, the items behind it are held, and nothing else has changed but
that the orders inserted since the first tick are pending. The tick after them
ends as a single tick on the step without those items does, in the same state. The
service, which may be one that counts the calls made to it, stays as the first tick
left it. -/
theorem held_step_resumes {b : Broker σ α} (hactive : b.finished = false) (hfree : b.held = none)
    {reply : StepReply α} {s : σ} (hdelivery : b.delivery = (.ok reply, s)) {step : Step α}
    (hcheck : reply.check = .ok step) :
    let failing := snags Account.take b.account step.items
    let fitting := passing Account.take b.account step.items
    (∀ (a : Account α) i, (∃ cause, a.take i = .error cause) ↔ i.Unfit a) ∧
    (fitting.Sublist step.items ∧ fitting.length + failing.length = step.items.length) ∧
    (∀ between cause rest, failing[between.length]? = some (cause, rest) →
      b.outcomes (.tick :: resuming between) =
        (failing.take (between.length + 1)).map (fun snag => .error (.ofDiscrepancy snag.1)) ∧
      ∃ front i, step.items = front ++ i :: rest ∧
        (b.after (.tick :: resuming between)).account.take i = .error cause ∧
        StoppedAfter b (b.after (.tick :: resuming between)) s
          (passing Account.take b.account front) between.flatten (step.keeping rest) ∧
        ((∀ x y : α, ¬ x < 0 → ¬ y < 0 → ¬ x + y < 0) → ¬ b.account.ledger.cash < 0 →
          ∀ e, i = .execution e → e.kind ≠ .sell)) ∧
    (∀ between, between.length = failing.length →
      (∃ t t' : ScriptedService α, (b.onto t).delivery = (.ok (reply.keeping fitting), t')) ∧
      ∀ {τ : Type} [Service τ α] (t t' : τ),
        (b.onto t).delivery = (.ok (reply.keeping fitting), t') →
          ∃ last, b.outcomes (.tick :: resuming between) =
              failing.map (fun snag => .error (.ofDiscrepancy snag.1)) ++ [last] ∧
            last.map TickReport.ending = (b.onto t).tick.1.map TickReport.ending ∧
            ((∃ report, last = .ok report) ∨ ∃ symbol, last = .error (.staleQuote symbol)) ∧
            (b.after (.tick :: resuming between)).held = none ∧
            b.after (.tick :: resuming between) = (b.onto t).tick.2.recast s between.flatten) := by
  refine ⟨Account.take_error_iff, ⟨passing_sublist _ _, passing_length_add _ _⟩, ?_, ?_⟩
  · intro between cause rest h
    obtain ⟨houtcomes, front, i, hitems, hitem, hstopped⟩ :=
      resumes_partly hactive hfree hdelivery hcheck h
    refine ⟨houtcomes, front, i, hitems, hitem, hstopped, fun hsum hcash e he hsell => ?_⟩
    have hsound : ¬ e.Unsound := by
      refine StepReply.check_sound hcheck ?_
      rw [hitems, he]
      exact List.mem_append_right _ List.mem_cons_self
    rw [he] at hitem
    exact StepItem.sell_fits hsum (Account.feed_cash_not_neg hstopped.account hcash) hsound hsell
      ((Account.take_error_iff _ _).mp ⟨cause, hitem⟩)
  · intro between h
    exact ⟨⟨_, delivery_replying b _⟩,
      fun t t' hclean => resumes_wholly hactive hfree hdelivery hcheck h hclean⟩

end

/-- Two items of the sample step fail, the second buy and the second placement. An
order inserted in between is still pending at the end. -/
theorem sample_held_step_resumes :
    sampleBroker.finished = false ∧ sampleBroker.held = none ∧
    (snags Account.take sampleBroker.account sampleStep.items).length = 2 ∧
    (sampleBroker.after (.tick :: resuming [[sampleOrder], []])).held = none ∧
    (sampleBroker.after (.tick :: resuming [[sampleOrder], []])).account.blotter.pending =
      [sampleOrder] := by
  obtain ⟨s, hdelivery⟩ : ∃ s, sampleBroker.delivery = (.ok sampleReply, s) := ⟨_, rfl⟩
  have hlength : (snags Account.take sampleBroker.account sampleStep.items).length = 2 := by
    decide +kernel
  obtain ⟨-, -, -, hwhole⟩ := held_step_resumes rfl rfl hdelivery check_sample
  obtain ⟨⟨t, t', hclean⟩, hwhole⟩ := hwhole [[sampleOrder], []] hlength.symm
  obtain ⟨last, -, -, -, hheld, hstate⟩ := hwhole t t' hclean
  refine ⟨rfl, rfl, hlength, hheld, ?_⟩
  rw [hstate]
  rfl

end Broker
end Brokerage
