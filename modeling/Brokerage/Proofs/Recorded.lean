/-
# What a replay records of its orders

A replay learns what became of its orders from the reports of its ticks, and a tick
that fails has none. So the trail and the counts of a replay tell of the dispatches
whose tick was completed, and of these exactly (`Broker.reports_dispatches`). What a
failed tick rejected is not recorded (`Broker.recorded_rejections`); a batch that was
acknowledged before its tick failed is not counted, and what the last tick of the
session submitted is counted but not recorded (`Broker.counted_submissions`).

Key definitions: `Dispatch.reported`, `Dispatch.ending`, `Dispatch.acknowledged`,
`AuditEntry.rejection?`, `AuditEntry.submitted?`.
Key theorems: `Broker.report_of_tick`, `Broker.reports_dispatches`,
`Broker.recorded_rejections`, `Broker.counted_submissions`.
-/
import Mathlib.Data.List.Flatten
import Brokerage.Proofs.OrderFlow
import Brokerage.Proofs.Rounds

namespace Brokerage

variable {σ α : Type} [Amount α]

namespace Dispatch

/-- The tick was completed, so it was reported. -/
def reported (d : Dispatch α) : Bool :=
  d.outcome.isOk

/-- The tick ended the session. -/
def ending (d : Dispatch α) : Bool :=
  d.outcome.toOption.any (·.finished)

/-- The drained orders that the service took. -/
def acknowledged (d : Dispatch α) : List (Order α) :=
  d.batches.flatMap (·.acknowledged)

end Dispatch

namespace AuditEntry

/-- The rejection that an entry records. -/
def rejection? : AuditEntry α → Option (Rejection α)
  | .orderRejected _ rejection => some rejection
  | _ => none

/-- The number of submitted orders that an entry records. -/
def submitted? : AuditEntry α → Option Nat
  | .tickCompleted _ report => some report.submitted
  | _ => none

end AuditEntry

/-! ### The report of a tick -/

namespace Broker

variable [Service σ α]

/-- **A report tells of the dispatch** of its tick: what was rejected, and how many
orders the service took. Without a dispatch it tells of no orders. -/
theorem report_of_tick {b : Broker σ α} {report : TickReport α} (h : b.tick.1 = .ok report) :
    (b.dispatch .tick = [b.dispatched] ∧ report.rejected = b.dispatched.rejected ∧
      report.submitted = b.dispatched.acknowledged.length) ∨
    (b.dispatch .tick = [] ∧ report.rejected = [] ∧ report.submitted = 0) := by
  rw [tick_eq] at h
  rcases hd : b.due with ⟨fault | ⟨step, begun⟩, c⟩
  · rw [hd] at h
    cases h
  · rw [hd] at h
    obtain ⟨-, -, hsubmitted, hrejected, -⟩ := applyStep_ok h
    rw [hsubmitted, hrejected]
    unfold dispatch
    rcases due_ok hd with ⟨hactive, ⟨hheld, rfl, -⟩ | ⟨hfree, rfl, reply, s, hdelivery, -, -⟩⟩
    · rw [hheld]
      exact .inr ⟨if_pos (Bool.or_true _), rfl, rfl⟩
    · rw [hactive, hfree]
      refine .inl ⟨rfl, Ledger.sift_rejected _ _, ?_⟩
      have hanswer : b.dispatched.answer = .ok () := by
        obtain ⟨t, hsubmission, -⟩ := submission_of_delivery hdelivery
        exact congrArg Prod.fst hsubmission
      have hbatches : b.dispatched.acknowledged = b.dispatched.accepted := by
        rw [← b.dispatched.batches_orders]
        unfold Dispatch.acknowledged Dispatch.batches Submission.acknowledged
        rw [hanswer]
        split <;> rfl
      rw [hbatches]
      exact congrArg List.length b.sifted_accepted

/-- The report of a call: that of a tick which was completed. -/
def reports (b : Broker σ α) (call : Call α) : List (TickReport α) :=
  (b.perform call).1.outcome?.toList.filterMap Except.toOption

theorem mem_dispatch {b : Broker σ α} {call : Call α} {d : Dispatch α}
    (h : d ∈ b.dispatch call) : d = b.dispatched := by
  cases call with
  | insert order => cases h
  | tick =>
    unfold dispatch at h
    cases hstale : b.finished || b.held.isSome with
    | true => rw [hstale] at h; cases h
    | false =>
      rw [hstale] at h
      exact List.mem_singleton.mp h

/-- A call has a report and a dispatch, a report alone, or neither. -/
theorem reports_cases (b : Broker σ α) : ∀ call : Call α,
    (∃ report d, b.reports call = [report] ∧ (b.dispatch call).filter (·.reported) = [d] ∧
      d.outcome = .ok report ∧ report.rejected = d.rejected ∧
      report.submitted = d.acknowledged.length) ∨
    (∃ report, b.reports call = [report] ∧ (b.dispatch call).filter (·.reported) = [] ∧
      report.rejected = [] ∧ report.submitted = 0) ∨
    (b.reports call = [] ∧ (b.dispatch call).filter (·.reported) = [])
  | .insert _ => .inr (.inr ⟨rfl, rfl⟩)
  | .tick => by
    have hreports : b.reports .tick = [b.tick.1].filterMap Except.toOption := rfl
    have hreported : b.dispatched.reported = b.tick.1.isOk := rfl
    rcases ht : b.tick.1 with fault | report
    · rw [ht] at hreports hreported
      refine .inr (.inr ⟨hreports, List.filter_eq_nil_iff.mpr fun d hd => ?_⟩)
      rw [mem_dispatch hd, hreported]
      exact Bool.false_ne_true
    · rw [ht] at hreports hreported
      rcases report_of_tick ht with ⟨hd, hrejected, hsubmitted⟩ | ⟨hd, hrejected, hsubmitted⟩
      · refine .inl ⟨report, b.dispatched, hreports, ?_, ht, hrejected, hsubmitted⟩
        rw [hd]
        exact List.filter_cons_of_pos hreported
      · exact .inr (.inl ⟨report, hreports, by rw [hd]; rfl, hrejected, hsubmitted⟩)

/-- What the report of a call tells of its orders, its dispatch tells. -/
theorem reports_dispatch (b : Broker σ α) (call : Call α) :
    let dispatch := (b.dispatch call).filter (·.reported)
    (b.reports call).flatMap (·.rejected) = dispatch.flatMap (·.rejected) ∧
    ((b.reports call).map (·.submitted)).sum = (dispatch.flatMap (·.acknowledged)).length ∧
    (((b.reports call).filter (!·.finished)).map (·.submitted)).sum =
      ((dispatch.filter (!·.ending)).flatMap (·.acknowledged)).length := by
  rcases b.reports_cases call with ⟨report, d, hr, hd, houtcome, hrejected, hsubmitted⟩ |
    ⟨report, hr, hd, hrejected, hsubmitted⟩ | ⟨hr, hd⟩
  · have hending : d.ending = report.finished := by
      unfold Dispatch.ending
      rw [houtcome]
      rfl
    rw [hr, hd]
    refine ⟨congrArg (· ++ []) hrejected, ?_, ?_⟩
    · simp [hsubmitted]
    · cases hf : report.finished <;> simp [hending, hf, hsubmitted]
  · rw [hr, hd]
    refine ⟨congrArg (· ++ []) hrejected, ?_, ?_⟩
    · simp [hsubmitted]
    · cases hf : report.finished <;> simp [hf, hsubmitted]
  · rw [hr, hd]
    exact ⟨rfl, rfl, rfl⟩

/-- **The reports of a run** tell of its reported dispatches. -/
theorem reports_dispatches : ∀ (calls : List (Call α)) (b : Broker σ α),
    let reports := (b.outcomes calls).filterMap Except.toOption
    let dispatches := (b.dispatches calls).filter (·.reported)
    reports.flatMap (·.rejected) = dispatches.flatMap (·.rejected) ∧
    (reports.map (·.submitted)).sum = (dispatches.flatMap (·.acknowledged)).length ∧
    ((reports.filter (!·.finished)).map (·.submitted)).sum =
      ((dispatches.filter (!·.ending)).flatMap (·.acknowledged)).length
  | [], _ => ⟨rfl, rfl, rfl⟩
  | call :: calls, b => by
    obtain ⟨hrejected, hsubmitted, hlogged⟩ := b.reports_dispatch call
    obtain ⟨irejected, isubmitted, ilogged⟩ := reports_dispatches calls (b.perform call).2
    have houtcomes : (b.outcomes (call :: calls)).filterMap Except.toOption =
        b.reports call ++ ((b.perform call).2.outcomes calls).filterMap Except.toOption := by
      rw [outcomes_cons, List.filterMap_append]
      rfl
    have hdispatches : (b.dispatches (call :: calls)).filter (·.reported) =
        (b.dispatch call).filter (·.reported) ++
          ((b.perform call).2.dispatches calls).filter (·.reported) := List.filter_append _ _
    simp only [houtcomes, hdispatches, List.flatMap_append, List.map_append, List.sum_append,
      List.filter_append, List.length_append]
    rw [hrejected, hsubmitted, hlogged, irejected, isubmitted, ilogged]
    exact ⟨rfl, rfl, rfl⟩

end Broker

/-! ### The trail and the counts -/

/-- What is not seen of executions is not seen of a list of them. -/
theorem orderResults_filterMap {γ : Type} {f : AuditEntry α → Option γ} {step : Nat}
    (h : ∀ e, f (.orderResult step e) = none) (es : List (Execution α)) :
    (es.map (.orderResult step)).filterMap f = [] := by
  rw [List.filterMap_map]
  exact List.filterMap_eq_nil_iff.mpr fun e _ => h e

theorem tickEntries_rejections (step : Nat) (report : TickReport α) :
    (tickEntries step report).filterMap AuditEntry.rejection? = report.rejected := by
  have hrejected : (report.rejected.map (AuditEntry.orderRejected step)).filterMap
      AuditEntry.rejection? = report.rejected := by
    rw [List.filterMap_map]
    exact List.filterMap_some
  unfold tickEntries
  rw [List.filterMap_append, List.filterMap_append, hrejected,
    orderResults_filterMap fun _ => rfl]
  cases report.finished <;> simp [AuditEntry.rejection?]

theorem tickEntries_submitted (step : Nat) (report : TickReport α) :
    (tickEntries step report).filterMap AuditEntry.submitted? =
      if report.finished then [] else [report.submitted] := by
  have hrejected : (report.rejected.map (AuditEntry.orderRejected step)).filterMap
      AuditEntry.submitted? = [] := by
    rw [List.filterMap_map]
    exact List.filterMap_eq_nil_iff.mpr fun _ _ => rfl
  unfold tickEntries
  rw [List.filterMap_append, List.filterMap_append, hrejected,
    orderResults_filterMap fun _ => rfl]
  cases report.finished <;> rfl

theorem abortEntries_filterMap {γ : Type} {f : AuditEntry α → Option γ} {step : Nat}
    (hresult : ∀ e, f (.orderResult step e) = none)
    (habort : ∀ fault, f (.runAborted step fault) = none) (es : List (Execution α))
    (fault : BrokerFault α) : (abortEntries step es fault).filterMap f = [] := by
  unfold abortEntries
  rw [List.filterMap_append, orderResults_filterMap hresult, List.filterMap_cons_none (habort fault)]
  rfl

variable [Service σ α]

/-- A completed round records the rejections of its report and, unless it ended the
session, its count; any other round records neither. -/
theorem Round.entries_orders (round : Round σ α) :
    round.entries.filterMap AuditEntry.rejection? =
      round.outcome.toOption.toList.flatMap (·.rejected) ∧
    round.entries.filterMap AuditEntry.submitted? =
      (round.outcome.toOption.toList.filter (!·.finished)).map (·.submitted) := by
  unfold Round.entries
  cases round.outcome with
  | error fault =>
    exact ⟨abortEntries_filterMap (fun _ => rfl) (fun _ => rfl) _ _,
      abortEntries_filterMap (fun _ => rfl) (fun _ => rfl) _ _⟩
  | ok report =>
    refine ⟨(tickEntries_rejections _ _).trans (List.append_nil _).symm, ?_⟩
    rw [tickEntries_submitted]
    cases hf : report.finished <;> simp [Except.toOption, hf]

theorem entries_orders : ∀ rounds : List (Round σ α),
    (rounds.flatMap Round.entries).filterMap AuditEntry.rejection? =
      (reportsOf rounds).flatMap (·.rejected) ∧
    (rounds.flatMap Round.entries).filterMap AuditEntry.submitted? =
      ((reportsOf rounds).filter (!·.finished)).map (·.submitted)
  | [] => ⟨rfl, rfl⟩
  | round :: rounds => by
    obtain ⟨hrejections, hsubmitted⟩ := round.entries_orders
    obtain ⟨irejections, isubmitted⟩ := entries_orders rounds
    rw [List.flatMap_cons, List.filterMap_append, List.filterMap_append, reportsOf_cons,
      List.flatMap_append, List.filter_append, List.map_append, hrejections, hsubmitted,
      irejections, isubmitted]
    exact ⟨rfl, rfl⟩

theorem filterMap_closing {γ : Type} {f : AuditEntry α → Option γ}
    (h : ∀ summary, f (.runCompleted summary) = none)
    (outcome : Option (Except (BrokerFault α) (RunSummary α))) :
    (closing outcome).filterMap f = [] := by
  rcases outcome with _ | fault | summary
  · rfl
  · rfl
  · exact List.filterMap_cons_none (h summary)

/-! ### What is left out -/

/-- Leaving some elements out makes no difference if and only if nothing comes of
them. -/
theorem length_flatMap_filter {γ δ : Type} (p : γ → Bool) (f : γ → List δ) : ∀ xs : List γ,
    ((xs.filter p).flatMap f).length = (xs.flatMap f).length ↔ ∀ x ∈ xs, p x = false → f x = []
  | [] => ⟨fun _ _ h => (by cases h), fun _ => rfl⟩
  | x :: xs => by
    have ih := length_flatMap_filter p f xs
    cases hx : p x with
    | true =>
      rw [List.filter_cons_of_pos hx, List.flatMap_cons, List.flatMap_cons, List.length_append,
        List.length_append, Nat.add_left_cancel_iff, ih]
      exact ⟨fun h y hy hpy => by
        rcases List.mem_cons.mp hy with rfl | hy
        · rw [hx] at hpy; cases hpy
        · exact h y hy hpy, fun h y hy => h y (List.mem_cons_of_mem x hy)⟩
    | false =>
      have hle : ((xs.filter p).flatMap f).length ≤ (xs.flatMap f).length :=
        (List.filter_sublist.flatMap f).length_le
      rw [List.filter_cons_of_neg (by rw [hx]; exact Bool.false_ne_true), List.flatMap_cons,
        List.length_append]
      constructor
      · intro h y hy hpy
        rcases List.mem_cons.mp hy with rfl | hy
        · exact List.eq_nil_of_length_eq_zero (by omega)
        · exact ih.mp (by omega) y hy hpy
      · intro h
        rw [h x List.mem_cons_self hx, ih.mpr fun y hy => h y (List.mem_cons_of_mem x hy)]
        exact (Nat.zero_add _).symm

theorem flatMap_filter_eq_iff {γ δ : Type} (p : γ → Bool) (f : γ → List δ) (xs : List γ) :
    (xs.filter p).flatMap f = xs.flatMap f ↔ ∀ x ∈ xs, p x = false → f x = [] := by
  rw [← length_flatMap_filter p f xs]
  exact ⟨congrArg List.length, (List.filter_sublist.flatMap f).eq_of_length⟩

namespace Broker

/-- A taped service has been sent the batches of the dispatches. -/
theorem submissions_after (b : Broker σ α) (calls : List (Call α)) :
    let taped : Broker (Taped σ α) α := b.onto ⟨b.service, []⟩
    (taped.after calls).untaped = b.after calls ∧
      (taped.after calls).service.submissions = (b.dispatches calls).flatMap (·.batches) := by
  refine ⟨(after_untaped calls _).symm, ?_⟩
  have hrun := gather_record (f := fun b => b.service.submissions) perform_submissions calls
    (b.onto (⟨b.service, []⟩ : Taped σ α))
  rw [gather_flatMap, ← gather_untaped dispatch_untaped] at hrun
  exact hrun

/-- **A replay records the rejections of the ticks that were completed.** The
observer is shown the rejections of all its dispatches; the trail has those of the
dispatches whose tick was completed, in order and each of them once, and the summary
counts these. So the trail has all rejections if and only if no tick that failed had
rejected an order, be it that the tick was tried again or that it ended the run. -/
theorem recorded_rejections (plan : Plan α) (options : RunOptions) (limit : Nat)
    (b : Broker σ α) :
    let calls := callsOf (b.rounds plan options limit 0)
    let dispatches := b.dispatches calls
    let done := replay plan options limit b
    let recorded := done.entries.filterMap AuditEntry.rejection?
    done.broker = b.after calls ∧
    done.broker.rejections = b.rejections ++ dispatches.flatMap (·.rejected) ∧
    recorded = (dispatches.filter (·.reported)).flatMap (·.rejected) ∧
    (recorded = dispatches.flatMap (·.rejected) ↔
      ∀ d ∈ dispatches, d.reported = false → d.rejected = []) ∧
    ∀ total, done.outcome = some (.ok total) → total.rejected = recorded.length := by
  obtain ⟨hbroker, hentries, htotal⟩ := replay_rounds plan options limit b
  obtain ⟨hreported, -, -⟩ := reports_dispatches (callsOf (b.rounds plan options limit 0)) b
  obtain ⟨hrounds, -⟩ := entries_orders (b.rounds plan options limit 0)
  have hrecorded : (replay plan options limit b).entries.filterMap AuditEntry.rejection? =
      (reportsOf (b.rounds plan options limit 0)).flatMap (·.rejected) := by
    rw [hentries, List.cons_append, List.filterMap_cons_none rfl, List.filterMap_append, hrounds,
      filterMap_closing fun _ => rfl, List.append_nil]
  rw [reports_rounds] at hreported
  refine ⟨hbroker, ?_, hrecorded.trans hreported, ?_, fun total h => ?_⟩
  · have hrun := gather_record perform_rejections (callsOf (b.rounds plan options limit 0)) b
    rw [gather_flatMap] at hrun
    rw [hbroker]
    exact hrun
  · rw [hrecorded, hreported]
    exact flatMap_filter_eq_iff _ _ _
  · obtain ⟨-, -, hrejected, -⟩ := htotal total h
    rw [hrejected, hrecorded]

/-- One retry for every tick. -/
def sampleOptions : RunOptions where
  planFile := "plan.json"
  maxTicks := none
  maxTickRetries := 1

/-- A service without a step that does not get the first batch. -/
def sampleHesitant : Broker (ScriptedService Rat) Rat :=
  sampleBroker.onto (sampleScenario.service.failSubmit (.transport "offline"))

/-- A sell, which is rejected, and a buy. -/
def samplePlan : Plan Rat :=
  ⟨[⟨0, sampleSell⟩, ⟨0, sampleOrder⟩]⟩

/-- The replay is completed, and its summary counts what the trail has. -/
theorem sample_recorded_rejections : ∃ total,
    (replay samplePlan sampleOptions 2 sampleHesitant).outcome = some (.ok total) ∧
    total.rejected = ((replay samplePlan sampleOptions 2 sampleHesitant).entries.filterMap
      AuditEntry.rejection?).length := by
  obtain ⟨-, -, -, -, hcount⟩ := recorded_rejections samplePlan sampleOptions 2 sampleHesitant
  have houtcome : (replay samplePlan sampleOptions 2 sampleHesitant).outcome =
      some (.ok ⟨⟨0⟩, 1, 1, 0, 0, 1000, none, true⟩) := rfl
  exact ⟨_, houtcome, hcount _ houtcome⟩

/-- The sell is rejected, but in a tick that is tried again: the trail does not have
it. -/
theorem sample_rejection_not_recorded :
    (replay samplePlan sampleOptions 2 sampleHesitant).broker.rejections.map (·.order) =
      [sampleSell] ∧
    (replay samplePlan sampleOptions 2 sampleHesitant).entries.filterMap AuditEntry.rejection? =
      [] := by
  refine ⟨?_, rfl⟩
  decide +kernel

/-- **A replay counts the orders of the ticks that were completed.** The service is
sent the batches of all its dispatches. The summary counts the orders that it took of
those dispatches whose tick was completed, and the trail has these counts but for the
tick that ended the session. So the summary counts the orders that the service took if
and only if it took none for a tick that failed afterwards, and the counts on the
trail add up to it if and only if it took none for the last tick of the session. -/
theorem counted_submissions (plan : Plan α) (options : RunOptions) (limit : Nat)
    (b : Broker σ α) :
    let calls := callsOf (b.rounds plan options limit 0)
    let dispatches := b.dispatches calls
    let done := replay plan options limit b
    let taped : Broker (Taped σ α) α := b.onto ⟨b.service, []⟩
    let taken := (taped.after calls).service.submissions.flatMap (·.acknowledged)
    let recorded := (done.entries.filterMap AuditEntry.submitted?).sum
    (done.broker = b.after calls ∧ (taped.after calls).untaped = done.broker) ∧
    (taped.after calls).service.submissions = dispatches.flatMap (·.batches) ∧
    recorded = (((dispatches.filter (·.reported)).filter (!·.ending)).flatMap
      (·.acknowledged)).length ∧
    ∀ total, done.outcome = some (.ok total) →
      total.submitted = ((dispatches.filter (·.reported)).flatMap (·.acknowledged)).length ∧
      (total.submitted = taken.length ↔
        ∀ d ∈ dispatches, d.reported = false → d.acknowledged = []) ∧
      (recorded = total.submitted ↔
        ∀ d ∈ dispatches, d.reported = true → d.ending = true → d.acknowledged = []) := by
  obtain ⟨hbroker, hentries, htotal⟩ := replay_rounds plan options limit b
  obtain ⟨-, hreported, hlogged⟩ :=
    reports_dispatches (callsOf (b.rounds plan options limit 0)) b
  obtain ⟨-, hrounds⟩ := entries_orders (b.rounds plan options limit 0)
  obtain ⟨huntaped, hsubmissions⟩ := b.submissions_after (callsOf (b.rounds plan options limit 0))
  have hrecorded : (replay plan options limit b).entries.filterMap AuditEntry.submitted? =
      ((reportsOf (b.rounds plan options limit 0)).filter (!·.finished)).map (·.submitted) := by
    rw [hentries, List.cons_append, List.filterMap_cons_none rfl, List.filterMap_append, hrounds,
      filterMap_closing fun _ => rfl, List.append_nil]
  rw [reports_rounds] at hreported hlogged
  refine ⟨⟨hbroker, huntaped.trans hbroker.symm⟩, hsubmissions, by rw [hrecorded, hlogged],
    fun total h => ?_⟩
  obtain ⟨-, hsubmitted, -, -⟩ := htotal total h
  rw [hsubmitted, hreported, hrecorded, hlogged]
  refine ⟨rfl, ?_, ?_⟩
  · rw [hsubmissions, List.flatMap_assoc]
    exact length_flatMap_filter _ _ _
  · rw [length_flatMap_filter]
    constructor
    · intro h d hd hreported hending
      exact h d (List.mem_filter.mpr ⟨hd, hreported⟩) (by rw [hending]; rfl)
    · intro h d hd hending
      obtain ⟨hd, hreported⟩ := List.mem_filter.mp hd
      exact h d hd hreported (by simpa using hending)

/-- A service with one step, of which the first request is lost. -/
def sampleForgetful : Broker (ScriptedService Rat) Rat :=
  sampleBroker.onto
    ((sampleScenario.service.pushStep sampleQuietReply).failStep (.transport "offline"))

/-- A buy at each of two steps. -/
def sampleBuys : Plan Rat :=
  ⟨[⟨0, sampleOrder⟩, ⟨1, sampleOrder⟩]⟩

/-- The replay is completed, and its summary counts the reported dispatches. -/
theorem sample_counted_submissions : ∃ total,
    (replay sampleBuys sampleOptions 3 sampleForgetful).outcome = some (.ok total) ∧
    total.submitted = (((sampleForgetful.dispatches
      (callsOf (sampleForgetful.rounds sampleBuys sampleOptions 3 0))).filter
        (·.reported)).flatMap (·.acknowledged)).length := by
  obtain ⟨-, -, -, hcount⟩ := counted_submissions sampleBuys sampleOptions 3 sampleForgetful
  have houtcome : (replay sampleBuys sampleOptions 3 sampleForgetful).outcome =
      some (.ok ⟨⟨0⟩, 2, 1, 0, 0, 1000, some 1000, true⟩) := rfl
  exact ⟨_, houtcome, (hcount _ houtcome).1⟩

/-- The service takes both orders, the summary counts one of them and the trail
none. -/
theorem sample_submissions_differ :
    (replay sampleBuys sampleOptions 3 sampleForgetful).broker.service.orders =
      [sampleOrder, sampleOrder] ∧
    (replay sampleBuys sampleOptions 3 sampleForgetful).outcome =
      some (.ok ⟨⟨0⟩, 2, 1, 0, 0, 1000, some 1000, true⟩) ∧
    (replay sampleBuys sampleOptions 3 sampleForgetful).entries.filterMap
      AuditEntry.submitted? = [0] :=
  ⟨rfl, rfl, rfl⟩

end Broker
end Brokerage
